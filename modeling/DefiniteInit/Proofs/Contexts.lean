import DefiniteInit.Proofs.Comparisons

/-!
# Code in a context

A statement with one of its blocks left out is a `StmtGap`, and a body with a part left out, at
whatever depth, is a `BodyGap`. Such a part is walked in the mode of the gap: shielded, if the gap
is in a region that may be left at any point, and in a loop, if it is in the body of one.

Two parts that compare in the mode of the gap compare in the body around them
(`Scope.Comparison.block_fill`), so what is to be said of a change at any depth needs to be shown of
the part that is changed and nothing else.
-/

namespace DefiniteInit

/-- A statement with one of its blocks left out. -/
inductive StmtGap where
  | branch (test : Expr) (orelse : List Stmt) (span : Span)
  | otherwise (test : Expr) (body : List Stmt) (span : Span)
  | whileBody (test : Expr) (orelse : List Stmt) (span : Span)
  | whileElse (test : Expr) (body : List Stmt) (span : Span)
  | forBody (target : Target) (source : Expr) (orelse : List Stmt) (span : Span)
  | forElse (target : Target) (source : Expr) (body : List Stmt) (span : Span)
  | tryBody (handlers : List Handler) (orelse final : List Stmt) (span : Span)
  /-- The block of a handler, with the handlers before and after it. -/
  | handler (body : List Stmt) (before : List Handler) (type : Option Expr) (name : Option Name)
      (handlerSpan : Span) (after : List Handler) (orelse final : List Stmt) (span : Span)
  | tryElse (body : List Stmt) (handlers : List Handler) (final : List Stmt) (span : Span)
  | tryFinal (body : List Stmt) (handlers : List Handler) (orelse : List Stmt) (span : Span)
  | withBody (items : List WithItem) (span : Span)

namespace StmtGap

/-- The statement with a block in the gap. -/
def fill (block : List Stmt) : StmtGap → Stmt
  | branch test orelse span => .ifElse test block orelse span
  | otherwise test body span => .ifElse test body block span
  | whileBody test orelse span => .whileLoop test block orelse span
  | whileElse test body span => .whileLoop test body block span
  | forBody target source orelse span => .forLoop target source block orelse span
  | forElse target source body span => .forLoop target source body block span
  | tryBody handlers orelse final span => .tryBlock block handlers orelse final span
  | handler body before type name handlerSpan after orelse final span =>
    .tryBlock body (before ++ ⟨type, name, block, handlerSpan⟩ :: after) orelse final span
  | tryElse body handlers final span => .tryBlock body handlers block final span
  | tryFinal body handlers orelse span => .tryBlock body handlers orelse block span
  | withBody items span => .withBlock items block span

/-- The mode in which a block in the gap is walked, if the statement is walked in mode `m`. -/
def mode (m : Mode) : StmtGap → Mode
  | branch _ _ _ | otherwise _ _ _ | whileElse _ _ _ | forElse _ _ _ _
  | tryFinal _ _ _ _ => m
  | whileBody _ _ _ | forBody _ _ _ _ => m.loop
  | tryBody _ _ _ _ | handler _ _ _ _ _ _ _ _ _ | tryElse _ _ _ _ | withBody _ _ => m.shield

end StmtGap

/-- A body with a part left out. -/
inductive BodyGap where
  /-- The part stands between other statements. -/
  | between (before after : List Stmt)
  /-- The part stands in a block of a statement that stands between others. -/
  | inside (before : List Stmt) (stmt : StmtGap) (block : BodyGap) (after : List Stmt)

namespace BodyGap

/-- The body with a part in the gap. -/
def fill (part : List Stmt) : BodyGap → List Stmt
  | between before after => before ++ (part ++ after)
  | inside before stmt block after => before ++ stmt.fill (block.fill part) :: after

/-- The mode in which a part in the gap is walked, if the body is walked in mode `m`. -/
def mode (m : Mode) : BodyGap → Mode
  | between _ _ => m
  | inside _ stmt block _ => block.mode (stmt.mode m)

/-- Filling a gap with parts that are empty together gives bodies that are empty together. -/
theorem isEmpty_fill {part part' : List Stmt} (h : part.isEmpty = part'.isEmpty) (gap : BodyGap) :
    (gap.fill part).isEmpty = (gap.fill part').isEmpty := by
  rw [Bool.eq_iff_iff, List.isEmpty_iff, List.isEmpty_iff] at h ⊢
  cases gap with
  | between before after => simp [fill, h]
  | inside before stmt block after => simp [fill]

end BodyGap

namespace Scope.Comparison

variable {sc sc' : Scope} {V : (AttrSet → Verdict) → (AttrSet → Verdict) → Prop}
  {R : (State → Outcome) → (State → Outcome) → Prop}
  (C : Comparison sc sc' (fun _ => True) (fun _ => True) V R)

include C

/-- A block compares with itself. -/
theorem block_self (m : Mode) (body : List Stmt) : R (sc.block m body) (sc'.block m body) :=
  C.block body m (fun _ _ => trivial) fun _ _ => trivial

/-- A list of handlers compares with itself. -/
theorem handlers_self (m : Mode) (hs : List Handler) : R (sc.handlers m hs) (sc'.handlers m hs) :=
  C.handlers hs m (fun _ _ => trivial) fun _ _ => trivial

/-- The binding of a loop variable. -/
theorem bind (m : Mode) (target : Target) :
    R (fun s => Scope.assign m (sc.judge.target s.defined target) target.assigned s)
      fun s => Scope.assign m (sc'.judge.target s.defined target) target.assigned s :=
  C.assign m (C.target target) (fun _ _ => trivial) fun _ =>
    Judge.not_mem_properties_of_target_isSafe target

variable {part part' : List Stmt}

/-- The comparison passes from the body of one handler to the whole list. -/
theorem handlers_fill (m : Mode) (h : R (sc.block m part) (sc'.block m part'))
    (before : List Handler) (type : Option Expr) (name : Option Name) (span : Span)
    (after : List Handler) :
    R (fun s => sc.handlers m (before ++ ⟨type, name, part, span⟩ :: after) s)
      fun s => sc'.handlers m (before ++ ⟨type, name, part', span⟩ :: after) s := by
  induction before with
  | nil =>
    simp only [List.nil_append, Scope.handlers]
    exact C.either (C.andThen (C.check (C.expr? type)) h) (C.handlers_self m after)
  | cons handler before ih =>
    obtain ⟨type', name', body, span'⟩ := handler
    simp only [List.cons_append, Scope.handlers]
    exact C.either (C.andThen (C.check (C.expr? type')) (C.block_self m body)) ih

/-- A `try` statement, by its parts. -/
theorem tryBlock_of (m : Mode) {body body' orelse orelse' last last' : List Stmt}
    {hs hs' : List Handler} (hlast : last.isEmpty = last'.isEmpty) (span : Span)
    (hbody : R (sc.block m.shield body) (sc'.block m.shield body'))
    (hhandlers : R (sc.handlers m.shield hs) (sc'.handlers m.shield hs'))
    (horelse : R (sc.block m.shield orelse) (sc'.block m.shield orelse'))
    (hfinal : R (sc.block m last) (sc'.block m last')) :
    R (fun s => sc.stmt m (.tryBlock body hs orelse last span) s)
      fun s => sc'.stmt m (.tryBlock body' hs' orelse' last' span) s := by
  have hregion := C.region hbody horelse hhandlers
  simp only [Scope.stmt, hlast]
  split
  · exact hregion
  · exact C.closeWith hregion hfinal

/-- Blocks that compare, in the gap of a statement. -/
theorem stmt_fill (hempty : part.isEmpty = part'.isEmpty) (gap : StmtGap) (m : Mode)
    (h : R (sc.block (gap.mode m) part) (sc'.block (gap.mode m) part')) :
    R (fun s => sc.stmt m (gap.fill part) s) fun s => sc'.stmt m (gap.fill part') s := by
  -- Around the gap both statements are the same, so each combinator of the walk compares by its own
  -- rule.
  cases gap with
  | branch test orelse span =>
    simp only [StmtGap.fill, Scope.stmt]
    exact C.andThen (C.check (C.expr test)) (C.either h (C.block_self m orelse))
  | otherwise test body span =>
    simp only [StmtGap.fill, Scope.stmt]
    exact C.andThen (C.check (C.expr test)) (C.either (C.block_self m body) h)
  | whileBody test orelse span =>
    simp only [StmtGap.fill, Scope.stmt]
    exact C.loop _ (C.expr test) h (C.block_self m orelse)
  | whileElse test body span =>
    simp only [StmtGap.fill, Scope.stmt]
    exact C.loop _ (C.expr test) (C.block_self m.loop body) h
  | forBody target source orelse span =>
    simp only [StmtGap.fill, Scope.stmt]
    exact C.andThen (C.check (C.expr source)) (C.loop _ (C.fixed .safe rfl)
      (C.andThen (C.bind m target) h) (C.block_self m orelse))
  | forElse target source body span =>
    simp only [StmtGap.fill, Scope.stmt]
    exact C.andThen (C.check (C.expr source)) (C.loop _ (C.fixed .safe rfl)
      (C.andThen (C.bind m target) (C.block_self m.loop body)) h)
  | tryBody hs orelse final span =>
    exact C.tryBlock_of m rfl span h (C.handlers_self _ hs) (C.block_self _ orelse)
      (C.block_self m final)
  | handler body before type name handlerSpan after orelse final span =>
    exact C.tryBlock_of m rfl span (C.block_self _ body)
      (C.handlers_fill _ h before type name handlerSpan after) (C.block_self _ orelse)
      (C.block_self m final)
  | tryElse body hs final span =>
    exact C.tryBlock_of m rfl span (C.block_self _ body) (C.handlers_self _ hs) h
      (C.block_self m final)
  | tryFinal body hs orelse span =>
    exact C.tryBlock_of m hempty span (C.block_self _ body) (C.handlers_self _ hs)
      (C.block_self _ orelse) h
  | withBody items span =>
    simp only [StmtGap.fill, Scope.stmt, Outcome.managed_eq]
    exact C.andThen (C.check (C.enter items)) (C.region h C.goOn C.goOn)

/-- Parts that compare in the mode of the gap compare in the body, at whatever depth. -/
theorem block_fill (hempty : part.isEmpty = part'.isEmpty) (gap : BodyGap) (m : Mode)
    (h : R (sc.block (gap.mode m) part) (sc'.block (gap.mode m) part')) :
    R (fun s => sc.block m (gap.fill part) s) fun s => sc'.block m (gap.fill part') s := by
  -- On the depth of the gap; a gap further in is walked in the mode of the blocks around it.
  induction gap generalizing m with
  | between before after =>
    have hrest : R (fun s => sc.block m (part ++ after) s)
        fun s => sc'.block m (part' ++ after) s := by
      simp only [Scope.block_append]
      exact C.andThen h (C.block_self m after)
    simp only [BodyGap.fill, Scope.block_append m before]
    exact C.andThen (C.block_self m before) hrest
  | inside before stmt block after ih =>
    have hrest : R (fun s => sc.block m (stmt.fill (block.fill part) :: after) s)
        fun s => sc'.block m (stmt.fill (block.fill part') :: after) s := by
      simp only [Scope.block]
      exact C.andThen (C.stmt_fill (block.isEmpty_fill hempty) stmt m (ih _ h))
        (C.block_self m after)
    simp only [BodyGap.fill, Scope.block_append]
    exact C.andThen (C.block_self m before) hrest

end Scope.Comparison

end DefiniteInit
