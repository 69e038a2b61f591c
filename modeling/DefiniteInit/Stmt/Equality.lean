import DefiniteInit.Expr.Equality
import DefiniteInit.Stmt.Basic

/-!
# Equality of statements

`==` compares two trees node by node, spans included, and expressions as
`Expr.equals` does.
-/

namespace DefiniteInit

namespace Target

mutual

/-- Whether two targets are the same tree. -/
def equals : Target → Target → Bool
  | .selfAttr a s, t => match t with
    | .selfAttr a' s' => a == a' && s == s'
    | _ => false
  | .self s, t => match t with
    | .self s' => s == s'
    | _ => false
  | .name n s, t => match t with
    | .name n' s' => n == n' && s == s'
    | _ => false
  | .attribute v a s, t => match t with
    | .attribute v' a' s' => v == v' && a == a' && s == s'
    | _ => false
  | .subscript v i s, t => match t with
    | .subscript v' i' s' => v == v' && i == i' && s == s'
    | _ => false
  | .tuple es s, t => match t with
    | .tuple es' s' => allEqual es es' && s == s'
    | _ => false
termination_by structural x => x

/-- Targets, one by one. -/
def allEqual : List Target → List Target → Bool
  | [], ts => ts.isEmpty
  | x :: xs, ts => match ts with
    | y :: ys => x.equals y && allEqual xs ys
    | [] => false
termination_by structural x => x

end

instance : BEq Target := ⟨equals⟩

end Target

instance : BEq WithItem := ⟨fun a b => a.manager == b.manager && a.target == b.target⟩

namespace Stmt

mutual

/-- Whether two statements are the same tree. -/
def equals : Stmt → Stmt → Bool
  | .assign ts v s, e => match e with
    | .assign ts' v' s' => ts == ts' && v == v' && s == s'
    | _ => false
  | .eval v s, e => match e with
    | .eval v' s' => v == v' && s == s'
    | _ => false
  | .ifElse t b o s, e => match e with
    | .ifElse t' b' o' s' => t == t' && allEqual b b' && allEqual o o' && s == s'
    | _ => false
  | .whileLoop t b o s, e => match e with
    | .whileLoop t' b' o' s' => t == t' && allEqual b b' && allEqual o o' && s == s'
    | _ => false
  | .forLoop t x b o s, e => match e with
    | .forLoop t' x' b' o' s' =>
      t == t' && x == x' && allEqual b b' && allEqual o o' && s == s'
    | _ => false
  | .tryBlock b hs o f s, e => match e with
    | .tryBlock b' hs' o' f' s' =>
      allEqual b b' && handlersEqual hs hs' && allEqual o o' && allEqual f f' && s == s'
    | _ => false
  | .withBlock is b s, e => match e with
    | .withBlock is' b' s' => is == is' && allEqual b b' && s == s'
    | _ => false
  | .ret v s, e => match e with
    | .ret v' s' => v == v' && s == s'
    | _ => false
  | .raise x c s, e => match e with
    | .raise x' c' s' => x == x' && c == c' && s == s'
    | _ => false
  | .assertion t m s, e => match e with
    | .assertion t' m' s' => t == t' && m == m' && s == s'
    | _ => false
  | .superInit t as ks s, e => match e with
    | .superInit t' as' ks' s' => t == t' && as == as' && ks == ks' && s == s'
    | _ => false
  | .rebindSelf v s, e => match e with
    | .rebindSelf v' s' => v == v' && s == s'
    | _ => false
  | .delete ts s, e => match e with
    | .delete ts' s' => ts == ts' && s == s'
    | _ => false
  | .nestedDef n c s, e => match e with
    | .nestedDef n' c' s' => n == n' && c == c' && s == s'
    | _ => false
  | .pass s, e => match e with
    | .pass s' => s == s'
    | _ => false
  | .breakLoop s, e => match e with
    | .breakLoop s' => s == s'
    | _ => false
  | .continueLoop s, e => match e with
    | .continueLoop s' => s == s'
    | _ => false
  | .unsupported s, e => match e with
    | .unsupported s' => s == s'
    | _ => false
termination_by structural x => x

/-- Statements, one by one. -/
def allEqual : List Stmt → List Stmt → Bool
  | [], es => es.isEmpty
  | x :: xs, es => match es with
    | y :: ys => x.equals y && allEqual xs ys
    | [] => false
termination_by structural x => x

/-- Handlers, one by one. -/
def handlersEqual : List Handler → List Handler → Bool
  | [], hs => hs.isEmpty
  | ⟨type, name, body, span⟩ :: xs, hs => match hs with
    | y :: ys => type == y.type && name == y.name && allEqual body y.body && span == y.span
        && handlersEqual xs ys
    | [] => false
termination_by structural x => x

end

instance : BEq Stmt := ⟨equals⟩

end Stmt

end DefiniteInit
