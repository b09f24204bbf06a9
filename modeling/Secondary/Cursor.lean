import Secondary.Find
import Secondary.Lib.Cells

/-!
# Cursor — `cursor.c`, and what a cursor is in memory

`SI_NewCursor` gets memory from `malloc` and assigns four of its six fields.  `compoundIndex_Find`
assigns the other two, the functions `Next` and `Release`, when it returns a scan, and leaves them
when it reports an error.  A cursor is here what is in memory: a field that nobody assigned has the
word that happened to be there.
-/

namespace Secondary

open Lib

/-! ## The code -/

/-- What a cursor's `Next` can be. -/
inductive CursorNext
  | scanNext

/-- What a cursor's `Release` can be, besides NULL. -/
inductive CursorRelease
  | ciScanCtxFree

/-- A field of memory from `malloc`. -/
abbrev HeapField (α : Type) : Type :=
  Field UInt64 α

/-- `SICursor` -/
structure CursorStruct where
  offset : HeapField Nat
  total : HeapField Nat
  error : HeapField Int
  ctx : HeapField (Option CiScanCtx)
  next : HeapField CursorNext
  release : HeapField (Option CursorRelease)

/-- The content of the memory that `malloc` returns for a cursor. -/
structure CursorWords where
  offset : UInt64
  total : UInt64
  error : UInt64
  ctx : UInt64
  next : UInt64
  release : UInt64

def mallocCursor (memory : CursorWords) : CursorStruct where
  offset := .junk memory.offset
  total := .junk memory.total
  error := .junk memory.error
  ctx := .junk memory.ctx
  next := .junk memory.next
  release := .junk memory.release

/-- `SI_NewCursor`; `memory` is what `malloc` returns. -/
def siNewCursor (memory : CursorWords) (ctx : Option CiScanCtx) : CursorStruct :=
  { mallocCursor memory with
    offset := .assigned 0
    total := .assigned 0
    ctx := .assigned ctx
    error := .assigned siCursorOk }

/-- `SICursor_Free` -/
def siCursorFree (c : CursorStruct) : Exec Unit := do
  let release ← c.release.read .unset
  match release with
  | none => .ok ()
  | some .ciScanCtxFree => do
      let ctx ← c.ctx.read .unset
      -- `ciScanCtx_free` frees the plan that `ctx` points to.
      let _ ← orFault ctx .null
      .ok ()

/-- `compoundIndex_Find` -/
def compoundIndexFindIn (memory : CursorWords) (idx : CompoundIndex) (q : SIQuery) :
    Exec (SIQuery × CursorStruct) :=
  let c := siNewCursor memory none
  if q.numPredicates = 0 then
    .ok (q, { c with error := .assigned siCursorError })
  else do
    let r ← siBuildQueryPlan q idx.spec
    match r.2 with
    | none => .ok (r.1, { c with error := .assigned siCursorError })
    | some plan => do
        let sctx ← CiScanCtx.startRange idx { plan := plan, currentScanRange := 0, it := none }
        .ok (r.1, { c with
          ctx := .assigned (some sctx)
          next := .assigned .scanNext
          release := .assigned (some .ciScanCtxFree) })

/-- `c->Next(c->ctx)` -/
def CursorStruct.callNext (idx : CompoundIndex) (c : CursorStruct) :
    Exec (CursorStruct × Option SIId) := do
  let next ← c.next.read .unset
  let ctx ← c.ctx.read .unset
  match next with
  | .scanNext => do
      let sctx ← orFault ctx .null
      let r ← scanNext idx sctx
      .ok ({ c with ctx := .assigned (some r.1) }, r.2)

/-! ## Cursors in memory -/

section Memory

variable {memory : CursorWords} {idx : CompoundIndex} {q : SIQuery}

/-- What a cursor is in memory. -/
def cursorIn (memory : CursorWords) (c : SICursor) : CursorStruct :=
  match c.ctx with
  | none => { siNewCursor memory none with error := .assigned c.error }
  | some sctx =>
      { siNewCursor memory (some sctx) with
        error := .assigned c.error
        next := .assigned .scanNext
        release := .assigned (some .ciScanCtxFree) }

/-- `compoundIndex_Find` makes in memory the cursor that `compoundIndexFind` says. -/
theorem compoundIndexFindIn_eq :
    compoundIndexFindIn memory idx q =
      compoundIndexFind idx q >>= fun r => .ok (r.1, cursorIn memory r.2) := by
  by_cases hnum : q.numPredicates = 0
  · simp [compoundIndexFindIn, compoundIndexFind, hnum, cursorIn]
  · simp only [compoundIndexFindIn, compoundIndexFind, hnum, if_false]
    cases siBuildQueryPlan q idx.spec with
    | error e => rfl
    | ok r =>
        obtain ⟨q', plan⟩ := r
        cases plan with
        | none => rfl
        | some plan =>
            simp only [ok_bind]
            cases CiScanCtx.startRange idx { plan := plan, currentScanRange := 0, it := none } with
            | error e => rfl
            | ok sctx => rfl

/-- The cursor of a scan in memory. -/
def scanCursor (memory : CursorWords) (sctx : CiScanCtx) : CursorStruct :=
  cursorIn memory { error := siCursorOk, ctx := some sctx }

theorem callNext_scanCursor (sctx : CiScanCtx) :
    (scanCursor memory sctx).callNext idx =
      scanNext idx sctx >>= fun r => .ok (scanCursor memory r.1, r.2) := rfl

end Memory

end Secondary
