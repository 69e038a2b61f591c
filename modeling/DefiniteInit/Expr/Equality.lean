import DefiniteInit.Expr.Basic

/-!
# Equality of expressions

`==` compares two trees node by node, spans included. It is numeric on floating-point
constants (`Binary64.equals`), so a tree with a NaN in it differs from itself.
-/

namespace DefiniteInit

namespace Expr

mutual

/-- Whether two expressions are the same tree. -/
def equals : Expr → Expr → Bool
  | .constant v s, e => match e with
    | .constant v' s' => v == v' && s == s'
    | _ => false
  | .self s, e => match e with
    | .self s' => s == s'
    | _ => false
  | .name n k s, e => match e with
    | .name n' k' s' => n == n' && k == k' && s == s'
    | _ => false
  | .attribute v a k s, e => match e with
    | .attribute v' a' k' s' => v.equals v' && a == a' && k == k' && s == s'
    | _ => false
  | .subscript v i s, e => match e with
    | .subscript v' i' s' => v.equals v' && i.equals i' && s == s'
    | _ => false
  | .binary l o r s, e => match e with
    | .binary l' o' r' s' => l.equals l' && o == o' && r.equals r' && s == s'
    | _ => false
  | .unary o x s, e => match e with
    | .unary o' x' s' => o == o' && x.equals x' && s == s'
    | _ => false
  | .logic o vs s, e => match e with
    | .logic o' vs' s' => o == o' && allEqual vs vs' && s == s'
    | _ => false
  | .compare l os cs s, e => match e with
    | .compare l' os' cs' s' => l.equals l' && os == os' && allEqual cs cs' && s == s'
    | _ => false
  | .conditional t b o s, e => match e with
    | .conditional t' b' o' s' => t.equals t' && b.equals b' && o.equals o' && s == s'
    | _ => false
  | .collection k es s, e => match e with
    | .collection k' es' s' => k == k' && allEqual es es' && s == s'
    | _ => false
  | .dict es s, e => match e with
    | .dict es' s' => entriesEqual es es' && s == s'
    | _ => false
  | .comprehension k x v gs s, e => match e with
    | .comprehension k' x' v' gs' s' =>
      k == k' && x.equals x' && valuesEqual v v' && generatorsEqual gs gs' && s == s'
    | _ => false
  | .call f as ks s, e => match e with
    | .call f' as' ks' s' => f.equals f' && allEqual as as' && keywordsEqual ks ks' && s == s'
    | _ => false
  | .isInstance v cs s, e => match e with
    | .isInstance v' cs' s' => v.equals v' && allEqual cs cs' && s == s'
    | _ => false
  | .cast v s, e => match e with
    | .cast v' s' => v.equals v' && s == s'
    | _ => false
  | .lambda b s, e => match e with
    | .lambda b' s' => b.equals b' && s == s'
    | _ => false
  | .bind n v s, e => match e with
    | .bind n' v' s' => n == n' && v.equals v' && s == s'
    | _ => false
  | .starred v s, e => match e with
    | .starred v' s' => v.equals v' && s == s'
    | _ => false
  | .unsupported s, e => match e with
    | .unsupported s' => s == s'
    | _ => false
termination_by structural x => x

/-- Expressions, one by one. -/
def allEqual : List Expr → List Expr → Bool
  | [], es => es.isEmpty
  | x :: xs, es => match es with
    | y :: ys => x.equals y && allEqual xs ys
    | [] => false
termination_by structural x => x

/-- Expressions that may be missing. -/
def valuesEqual : Option Expr → Option Expr → Bool
  | none, e => e.isNone
  | some x, e => match e with
    | some y => x.equals y
    | none => false
termination_by structural x => x

/-- Entries of dict displays, one by one. -/
def entriesEqual : List DictEntry → List DictEntry → Bool
  | [], es => es.isEmpty
  | ⟨key, value⟩ :: xs, es => match es with
    | y :: ys => valuesEqual key y.key && value.equals y.value && entriesEqual xs ys
    | [] => false
termination_by structural x => x

/-- Clauses of comprehensions, one by one. -/
def generatorsEqual : List Generator → List Generator → Bool
  | [], gs => gs.isEmpty
  | ⟨target, source, filters⟩ :: xs, gs => match gs with
    | y :: ys => target == y.target && source.equals y.source && allEqual filters y.filters
        && generatorsEqual xs ys
    | [] => false
termination_by structural x => x

/-- Keyword arguments, one by one. -/
def keywordsEqual : List Keyword → List Keyword → Bool
  | [], ks => ks.isEmpty
  | ⟨label, value⟩ :: xs, ks => match ks with
    | y :: ys => label == y.name && value.equals y.value && keywordsEqual xs ys
    | [] => false
termination_by structural x => x

end

instance : BEq Expr := ⟨equals⟩

end Expr

instance : BEq Keyword := ⟨fun a b => a.name == b.name && a.value == b.value⟩

end DefiniteInit
