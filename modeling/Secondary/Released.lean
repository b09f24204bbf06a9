import Secondary.Find
import Secondary.IndexMap
import Secondary.Skiplist.Memory

/-!
# Released — the keys that an index may still read

A key is live from its allocation to its release.  An index releases the key of an id when the id
goes or gets another tuple; `Held` says that until then every key that a node uses is the key of
some id.  It is kept whatever the comparators answer, as long as a change does not release a key
that a node goes on using (`OwnNode`), and while it holds nothing that an index does reads a
released key.
-/

namespace Secondary

open Lib

/-! ## Comparing values -/

/-- The comparators of an index look at values alone. -/
def ComparesLive (fs : List SIKeyCmpFunc) : Prop :=
  ∀ f ∈ fs, ∀ v w, ReadsLive (f v w)

theorem readsLive_cmpSpecial {v w : SIValue} {values : Exec Int} (h : ReadsLive values) :
    ReadsLive (cmpSpecial v w values) := by
  unfold cmpSpecial
  by_cases hv : v.isNull = true
  · rw [if_pos hv]
    exact avoids_ok _
  · rw [if_neg hv]
    split_ifs
    · exact avoids_ok _
    · exact avoids_ok _
    · exact avoids_ok _
    · exact h

theorem readsLive_genericCmp {α : Type} {memb : SIValue → Exec α} (h : ∀ v, ReadsLive (memb v))
    (lt : α → α → Bool) (v w : SIValue) : ReadsLive (genericCmp memb lt v w) :=
  readsLive_cmpSpecial ((h v).bind fun _ _ => (h w).bind fun _ _ => avoids_ok _)

theorem readsLive_siCmpString (v w : SIValue) : ReadsLive (siCmpString v w) := by
  have hread : ∀ v : SIValue, ReadsLive v.stringval := by
    intro v
    cases v <;> simp [SIValue.stringval, ReadsLive, Avoids]
  refine readsLive_cmpSpecial ((hread v).bind fun s1 _ => (hread w).bind fun s2 _ => ?_)
  dsimp only
  split_ifs <;> exact avoids_ok _

/-- A comparator that reads a member of the wrong type faults, but not for a key. -/
theorem readsLive_cmpFuncOf {t : SIType} {f : SIKeyCmpFunc} (h : cmpFuncOf t = .ok f)
    (v w : SIValue) : ReadsLive (f v w) := by
  cases t <;> cases h
  case string => exact readsLive_siCmpString v w
  all_goals
    refine readsLive_genericCmp (fun v => ?_) _ v w
    cases v <;>
      simp [SIValue.intval, SIValue.longval, SIValue.uintval, SIValue.floatval,
        SIValue.doubleval, SIValue.timeval, ReadsLive, Avoids]

theorem comparesLive_of_cmpFuncsOf {types : List SIType} {fs : List SIKeyCmpFunc}
    (h : CmpFuncsOf types fs) : ComparesLive fs := by
  induction h with
  | nil => simp [ComparesLive]
  | cons hf _ ih => exact List.forall_mem_cons.2 ⟨readsLive_cmpFuncOf hf, ih⟩

section Compare

variable {fs : List SIKeyCmpFunc} (hfs : ComparesLive fs)

include hfs

theorem readsLive_siCmpMultiKey : ∀ ks ks' : SIMultiKey, ReadsLive (siCmpMultiKey fs ks ks') := by
  induction fs with
  | nil =>
      intro ks ks'
      cases ks with
      | nil => exact avoids_ok _
      | cons k ks =>
          cases ks' with
          | nil => exact avoids_ok _
          | cons k' ks' => exact avoids_error (by decide)
  | cons f fs ih =>
      intro ks ks'
      cases ks with
      | nil => exact avoids_ok _
      | cons k ks =>
          cases ks' with
          | nil => exact avoids_ok _
          | cons k' ks' =>
              refine (hfs f (by simp) k k').bind fun rc _ => ?_
              split_ifs
              · exact avoids_ok _
              · exact ih (fun g hg => hfs g (List.mem_cons_of_mem _ hg)) ks ks'

/-! ## Filtering -/

theorem readsLive_equalsAll {f : SIKeyCmpFunc} (hf : f ∈ fs) (v : SIValue) :
    ∀ ws, ReadsLive (equalsAll f v ws)
  | [] => avoids_ok _
  | w :: ws => by
      refine (hfs f hf v w).bind fun c _ => ?_
      split_ifs
      · exact avoids_ok _
      · exact readsLive_equalsAll hf v ws

theorem readsLive_withinRange {f : SIKeyCmpFunc} (hf : f ∈ fs) (v min max : SIValue)
    (minExclusive maxExclusive : Bool) :
    ReadsLive (withinRange f v min max minExclusive maxExclusive) := by
  refine (hfs f hf v min).bind fun c _ => ?_
  split_ifs
  · exact avoids_ok _
  · exact (hfs f hf v max).bind fun _ _ => avoids_ok _

theorem readsLive_evalPredicate (p : SIPredicate) (mk : SIMultiKey) :
    ReadsLive (evalPredicate p mk fs) := by
  unfold evalPredicate
  split_ifs
  · exact avoids_ok _
  · refine (avoids_orFault (by decide)).bind fun f hf => ?_
    refine (avoids_orFault (by decide)).bind fun v _ => ?_
    have hmem : f ∈ fs := List.mem_of_getElem? (orFault_eq_ok.1 hf)
    cases p.t with
    | eq w => exact (hfs f hmem v w).bind fun _ _ => avoids_ok _
    | ne w => exact (hfs f hmem v w).bind fun _ _ => avoids_ok _
    | rng min max minExclusive maxExclusive => exact readsLive_withinRange hfs hmem v _ _ _ _
    | inList ws => exact (readsLive_equalsAll hfs hmem v ws).bind fun _ _ => avoids_ok _
    | isNull w => exact avoids_ok _

theorem readsLive_evalKey (mk : SIMultiKey) : ∀ n, ReadsLive (evalKey mk fs n)
  | .null => avoids_error (by decide)
  | .pred passthru p => by
      unfold evalKey
      split_ifs
      · exact avoids_ok _
      · exact readsLive_evalPredicate hfs p mk
  | .logic passthru op left right => by
      unfold evalKey
      split_ifs
      · exact avoids_ok _
      · refine (readsLive_evalKey mk left).bind fun l _ => ?_
        cases op <;> dsimp only <;> split_ifs <;>
          first
            | exact avoids_ok _
            | exact readsLive_evalKey mk right

end Compare

/-! ## Planning -/

theorem readsLive_isPassthru (n : SIQueryNode) : ReadsLive n.isPassthru := by
  cases n with
  | null => exact avoids_error (by decide)
  | pred passthru p => exact avoids_ok _
  | logic passthru op left right => exact avoids_ok _

theorem readsLive_cleanQueryNode : ∀ n, ReadsLive (cleanQueryNode n)
  | .null => avoids_ok _
  | .pred _ _ => avoids_ok _
  | .logic passthru op left right => by
      unfold cleanQueryNode
      split_ifs
      · exact avoids_ok _
      · refine (readsLive_cleanQueryNode left).bind fun left' _ => ?_
        refine (readsLive_cleanQueryNode right).bind fun right' _ => ?_
        refine (readsLive_isPassthru left').bind fun l _ => ?_
        refine (readsLive_isPassthru right').bind fun r _ => ?_
        split_ifs <;> exact avoids_ok _

theorem readsLive_scanKeys (numPredicates : Nat) :
    ∀ props root keys, ReadsLive (scanKeys numPredicates props root keys)
  | 0, _, _ => avoids_ok _
  | props + 1, root, keys => by
      unfold scanKeys
      dsimp only
      cases (getPredicate keys.length root).2 with
      | none => exact avoids_ok _
      | some pred =>
          dsimp only
          split_ifs
          · rcases predicateToRanges pred with ⟨_ | ka, _ | _⟩
            · exact avoids_ok _
            · exact avoids_ok _
            · exact readsLive_scanKeys numPredicates props _ _
            · exact avoids_ok _
          · exact avoids_error (by decide)

theorem readsLive_siBuildQueryPlan (q : SIQuery) (spec : SISpec) :
    ReadsLive (siBuildQueryPlan q spec) := by
  refine (readsLive_scanKeys q.numPredicates spec.numProps q.root []).bind fun r _ => ?_
  split_ifs
  · exact avoids_ok _
  · refine (readsLive_isPassthru r.1).bind fun passthru _ => ?_
    split_ifs
    · exact avoids_ok _
    · exact (readsLive_cleanQueryNode r.1).bind fun _ _ => avoids_ok _

/-! ## Keys in use -/

/-- Every key that a node uses as its obj and every key that the reverse index maps an id to is
live. -/
structure KeysLive (idx : CompoundIndex) : Prop where
  node : ∀ x r, idx.sl.nodes.objAt? x = some r → idx.keys.Live r
  entry : ∀ id r, idx.ri.lookup id = some r → idx.keys.Live r

/-- The invariant behind `KeysLive`: the key of a node is the key of an id, and of one only. -/
structure Held (idx : CompoundIndex) : Prop where
  compares : ComparesLive idx.cmpFuncs
  live : ∀ id r, idx.ri.lookup id = some r → idx.keys.Live r
  inj : ∀ id id' r, idx.ri.lookup id = some r → idx.ri.lookup id' = some r → id = id'
  owned : ∀ x r, idx.sl.nodes.objAt? x = some r → ∃ id, idx.ri.lookup id = some r

/-- A live key that no id has. -/
def KeyFree (idx : CompoundIndex) (r : KeyRef) : Prop :=
  idx.keys.Live r ∧ ∀ id, idx.ri.lookup id ≠ some r

namespace Held

variable {idx : CompoundIndex} {id : SIId} {r : KeyRef}

theorem keysLive (h : Held idx) : KeysLive idx where
  node := by
    intro x r hx
    obtain ⟨id, hl⟩ := h.owned x r hx
    exact h.live id r hl
  entry := h.live

/-- The invariant looks the reverse index up. -/
theorem withRi (h : Held idx) {ri : Finmap fun _ : SIId => KeyRef}
    (hri : ∀ id, ri.lookup id = idx.ri.lookup id) : Held { idx with ri := ri } where
  compares := h.compares
  live := by
    intro id r hl
    rw [hri] at hl
    exact h.live id r hl
  inj := by
    intro id id' r hl hl'
    rw [hri] at hl hl'
    exact h.inj id id' r hl hl'
  owned := by
    intro x r hx
    obtain ⟨id, hl⟩ := h.owned x r hx
    exact ⟨id, (hri id).trans hl⟩

theorem withKeys (h : Held idx) {keys : Store SIMultiKey}
    (hlive : ∀ id r, idx.ri.lookup id = some r → keys.Live r) : Held { idx with keys := keys } where
  compares := h.compares
  live := hlive
  inj := h.inj
  owned := h.owned

end Held

/-! ## Reading an index -/

theorem readsLive_readKey {keys : Store SIMultiKey} {r : KeyRef} (h : keys.Live r) :
    ReadsLive (readKey keys r) := by
  obtain ⟨k, hk⟩ := Store.live_iff.1 h
  rw [readKey_of_cell hk]
  exact avoids_ok k

section Read

variable {idx : CompoundIndex} (h : Held idx)

include h

theorem asksLive_compare {r : KeyRef} (hr : idx.keys.Live r) :
    AsksLive idx.sl.nodes fun k => idx.compare k r :=
  fun x k hk =>
    (readsLive_readKey (h.keysLive.node x k hk)).bind fun mk1 _ =>
      (readsLive_readKey hr).bind fun mk2 _ => readsLive_siCmpMultiKey h.compares mk1 mk2

theorem asksLive_compareBound (bound : SIMultiKey) :
    AsksLive idx.sl.nodes fun k => idx.compareBound k bound :=
  fun x k hk =>
    (readsLive_readKey (h.keysLive.node x k hk)).bind fun mk1 _ =>
      readsLive_siCmpMultiKey h.compares mk1 bound

theorem readsLive_startRange (sc : CiScanCtx) : ReadsLive (sc.startRange idx) := by
  unfold CiScanCtx.startRange
  cases sc.currentRange with
  | none => exact avoids_ok _
  | some cr =>
      refine (readsLive_skiplistIterateRange (asksLive_compareBound h cr.min) ?_ _ _).bind
        fun it _ => avoids_ok _
      intro m _
      exact asksLive_compareBound h m

theorem readsLive_passesFilter (plan : SIQueryPlan) (n : Nat) :
    ReadsLive (passesFilter idx plan n) := by
  refine Nodes.readsLive_objAt.bind fun obj hobj => ?_
  cases plan.filterTree with
  | none => exact avoids_ok _
  | some tree =>
      refine (readsLive_readKey (h.keysLive.node n obj (Nodes.objAt_eq_ok hobj))).bind fun mk _ => ?_
      exact readsLive_evalKey h.compares mk tree

theorem readsLive_iteratorNext (it : SkiplistIterator SIMultiKey) :
    ReadsLive (skiplistIteratorNext idx.compareBound idx.sl it) :=
  readsLive_skiplistIteratorNext fun m _ => asksLive_compareBound h m

/-- A step of any cursor, also of one that was made before the index changed. -/
theorem readsLive_scanLoop (fuel : Nat) (sc : CiScanCtx) : ReadsLive (scanLoop idx fuel sc) := by
  have hloop : ∀ fuel sc, True → Ends (scanLoop idx fuel sc) Fault.released fun _ => True := by
    refine scanLoop_ends (by decide) (by decide) ?_ ?_
    · intro sc it n _ _ _ _
      exact ⟨readsLive_passesFilter h sc.plan n, readsLive_iteratorNext h it, fun _ _ => trivial⟩
    · exact fun _ _ => ⟨readsLive_startRange h _, fun _ _ => trivial⟩
  exact (hloop fuel sc trivial).1

theorem readsLive_compoundIndexFind (q : SIQuery) : ReadsLive (compoundIndexFind idx q) := by
  unfold compoundIndexFind
  split_ifs
  · exact avoids_ok _
  · refine (readsLive_siBuildQueryPlan q idx.spec).bind fun r _ => ?_
    cases r.2 with
    | none => exact avoids_ok _
    | some plan => exact (readsLive_startRange h _).bind fun _ _ => avoids_ok _

theorem readsLive_walkLoop {α : Type} (visit : List SIId → Option KeyRef → List α) :
    ∀ fuel it, ReadsLive (walkLoop idx visit fuel it)
  | 0, _ => avoids_error (by decide)
  | fuel + 1, it => by
      unfold walkLoop
      cases it.current with
      | none => exact avoids_ok _
      | some n =>
          refine Nodes.readsLive_node.bind fun x _ => ?_
          refine (readsLive_iteratorNext h it).bind fun r _ => ?_
          exact (readsLive_walkLoop visit fuel r.1).bind fun _ _ => avoids_ok _

end Read

/-! ## Releasing a key -/

/-- If a node uses the tuple of `id` as its obj, a search for this tuple ends at that node, and
nothing is left in the node when `id` leaves it. -/
def OwnNode (idx : CompoundIndex) (id : SIId) : Prop :=
  ∀ r, idx.ri.lookup id = some r → ∀ x n, idx.sl.nodes.cell x = some n → n.obj = some r →
    remainingVals strcmp (some id) n.vals = [] ∧
      ∀ f, skiplistFind idx.compare idx.sl r = .ok f → f = some x

/-- What a computation returns, if it returns, is checked by running it. -/
instance decidableReturns {α : Type} (x : Exec α) (P : α → Prop) [DecidablePred P] :
    Decidable (∀ a, x = .ok a → P a) :=
  match x with
  | .ok a => decidable_of_iff (P a) (by simp)
  | .error _ => .isTrue (by simp)

theorem ownNode_iff_lookup {idx : CompoundIndex} {id : SIId} :
    OwnNode idx id ↔ ∀ r ∈ idx.ri.lookup id, ∀ x < idx.sl.nodes.next, ∀ n ∈ idx.sl.nodes.cell x,
      n.obj = some r → remainingVals strcmp (some id) n.vals = [] ∧
        ∀ f, skiplistFind idx.compare idx.sl r = .ok f → f = some x :=
  ⟨fun h r hl x _ n hn => h r hl x n hn, fun h r hl x n hn => h r hl x (Store.lt_next hn) n hn⟩

instance (idx : CompoundIndex) (id : SIId) : Decidable (OwnNode idx id) :=
  decidable_of_iff _ ownNode_iff_lookup.symm

section Drop

variable {idx idx' : CompoundIndex} {id : SIId} {r : KeyRef}

theorem dropEntry_eq_ok (h : dropEntry idx id r = .ok idx') :
    ∃ sl' found, skiplistDelete idx.compare strcmp idx.sl r (some id) = .ok (sl', found) ∧
      idx' = { idx with sl := sl', keys := idx.keys.free r, length := idx.length - 1 } := by
  obtain ⟨⟨sl', found⟩, hdelete, h⟩ := bind_eq_ok.1 h
  obtain ⟨idx₁, hfree, h⟩ := bind_eq_ok.1 h
  obtain ⟨_, _, hfree⟩ := bind_eq_ok.1 hfree
  obtain rfl := Except.ok.inj hfree
  obtain rfl := Except.ok.inj h
  exact ⟨sl', found, hdelete, rfl⟩

/-- The released key is still the obj of some node, unless the id has a node of its own. -/
theorem dropEntry_ownNode_iff (hl : idx.ri.lookup id = some r)
    (h : dropEntry idx id r = .ok idx') :
    (∀ x, idx'.sl.nodes.objAt? x ≠ some r) ↔ OwnNode idx id := by
  obtain ⟨sl', found, hdelete, rfl⟩ := dropEntry_eq_ok h
  obtain ⟨f, hfind, hobj⟩ := objAt?_skiplistDelete hdelete
  constructor
  · intro hnone r' hl' x n hn hnobj
    obtain rfl : r = r' := Option.some.inj (hl.symm.trans hl')
    have hx := hobj x
    split_ifs at hx with hcond
    · obtain ⟨hf, n', hn', hnil⟩ := hcond
      obtain rfl := Option.some.inj (hn.symm.trans hn')
      refine ⟨hnil, fun f' hf' => ?_⟩
      rw [← hf]
      exact Except.ok.inj (hf'.symm.trans hfind)
    · refine absurd (hx.trans ?_) (hnone x)
      simp [Nodes.objAt?, hn, hnobj]
  · intro hown x hx
    have hx' := hx
    rw [hobj x] at hx'
    split_ifs at hx' with hcond
    obtain ⟨n, hn, hnobj⟩ := Option.bind_eq_some_iff.1 hx'
    obtain ⟨hnil, hfound⟩ := hown r hl x n hn hnobj
    exact hcond ⟨hfound f hfind, n, hn, hnil⟩

theorem objAt?_dropEntry (h : dropEntry idx id r = .ok idx') {x : Nat} {r' : KeyRef}
    (hx : idx'.sl.nodes.objAt? x = some r') : idx.sl.nodes.objAt? x = some r' := by
  obtain ⟨sl', found, hdelete, rfl⟩ := dropEntry_eq_ok h
  obtain ⟨f, _, hobj⟩ := objAt?_skiplistDelete hdelete
  rw [hobj x] at hx
  split_ifs at hx
  exact hx

theorem live_free {keys : Store SIMultiKey} {r r' : KeyRef} (h : keys.Live r') (hne : r' ≠ r) :
    (keys.free r).Live r' := by
  rw [Store.Live, Store.cell_free_of_ne keys hne]
  exact h

theorem live_alloc {keys : Store SIMultiKey} {r : KeyRef} (h : keys.Live r) (mk : SIMultiKey) :
    (keys.alloc mk).Live r := by
  obtain ⟨k, hk⟩ := Store.live_iff.1 h
  exact Store.live_iff.2 ⟨k, Store.cell_alloc_of_some hk mk⟩

namespace Held

/-- Dropping the entry of an id, up to its entry in the reverse index. -/
theorem dropEntry (h : Held idx) (hl : idx.ri.lookup id = some r) (hown : OwnNode idx id) :
    Ends (dropEntry idx id r) .released fun idx' =>
      Held { idx' with ri := idx.ri.erase id } ∧ idx'.ri = idx.ri ∧
        ∀ r', KeyFree idx r' → KeyFree idx' r' := by
  -- Another id has another key, so its key outlives the freed one.
  have hlookup : ∀ id' r', (idx.ri.erase id).lookup id' = some r' →
      idx.ri.lookup id' = some r' ∧ r' ≠ r := by
    intro id' r' hl'
    obtain ⟨hid, hlookup⟩ := lookup_of_erase hl'
    refine ⟨hlookup, ?_⟩
    rintro rfl
    exact hid (h.inj id' id r' hlookup hl)
  refine ⟨?_, fun idx' hrun => ?_⟩
  · refine (readsLive_skiplistDelete (asksLive_compare h (h.live id r hl))).bind fun r' _ => ?_
    refine Avoids.bind ?_ fun _ _ => avoids_ok _
    exact (readsLive_readKey (h.live id r hl)).bind fun _ _ => avoids_ok _
  · have hnone := (dropEntry_ownNode_iff hl hrun).2 hown
    have hobj : ∀ x r', idx'.sl.nodes.objAt? x = some r' → idx.sl.nodes.objAt? x = some r' :=
      fun _ _ => objAt?_dropEntry hrun
    obtain ⟨sl', found, _, rfl⟩ := dropEntry_eq_ok hrun
    refine ⟨⟨h.compares, ?_, ?_, ?_⟩, rfl, ?_⟩
    · intro id' r' hl'
      obtain ⟨hl', hne⟩ := hlookup id' r' hl'
      exact live_free (h.live id' r' hl') hne
    · intro id' id'' r' hl' hl''
      exact h.inj id' id'' r' (hlookup id' r' hl').1 (hlookup id'' r' hl'').1
    · intro x r' hx
      obtain ⟨id', hl'⟩ := h.owned x r' (hobj x r' hx)
      refine ⟨id', ?_⟩
      have hid : id' ≠ id := by
        rintro rfl
        obtain rfl := Option.some.inj (hl.symm.trans hl')
        exact hnone x hx
      exact (Finmap.lookup_erase_ne hid).trans hl'
    · rintro r' ⟨hlive, hfree⟩
      refine ⟨live_free hlive ?_, hfree⟩
      rintro rfl
      exact hfree id hl

/-- The condition is exact: without it, dropping the entry leaves a node with a released key. -/
theorem dropEntry_live_iff (h : Held idx) (hl : idx.ri.lookup id = some r)
    (hrun : Secondary.dropEntry idx id r = .ok idx') :
    (∀ x r', idx'.sl.nodes.objAt? x = some r' → idx'.keys.Live r') ↔ OwnNode idx id := by
  constructor
  · intro hlive
    refine (dropEntry_ownNode_iff hl hrun).1 fun x hx => ?_
    have hdead := hlive x r hx
    obtain ⟨sl', found, _, rfl⟩ := dropEntry_eq_ok hrun
    simp [Store.Live] at hdead
  · intro hown
    exact ((h.dropEntry hl hown).2 idx' hrun).1.keysLive.node

theorem dropExisting (h : Held idx) (hown : OwnNode idx id) :
    Ends (dropExisting idx id) .released fun idx' =>
      Held { idx' with ri := idx.ri.erase id } ∧ idx'.ri = idx.ri ∧
        ∀ r', KeyFree idx r' → KeyFree idx' r' := by
  unfold Secondary.dropExisting
  cases hl : idx.ri.lookup id with
  | none =>
      refine ends_ok ⟨h.withRi fun id' => ?_, rfl, fun _ h => h⟩
      by_cases hid : id' = id
      · subst hid
        simp [hl]
      · exact Finmap.lookup_erase_ne hid
  | some oldkey => exact h.dropEntry hl hown

/-- Storing an id under a key that is its own, where its entry in the reverse index may be old. -/
theorem storeEntry (h : Held { idx with ri := idx.ri.erase id })
    (hr : KeyFree { idx with ri := idx.ri.erase id } r) (level : Level) :
    Ends (storeEntry idx id r level) .released Held := by
  refine ⟨?_, fun idx' hrun => ?_⟩
  · exact (readsLive_skiplistInsert (asksLive_compare h hr.1)).bind fun _ _ => avoids_ok _
  · obtain ⟨sl', hinsert, heq⟩ := bind_eq_ok.1 hrun
    obtain rfl := Except.ok.inj heq
    -- An entry is the new one or an old one of another id.
    have hentry : ∀ id' r', (idx.ri.insert id r).lookup id' = some r' →
        (id' = id ∧ r' = r) ∨ (id' ≠ id ∧ (idx.ri.erase id).lookup id' = some r') := by
      intro id' r' hl
      refine (lookup_of_insert hl).imp_right fun ⟨hid, hlookup⟩ => ⟨hid, ?_⟩
      rwa [Finmap.lookup_erase_ne hid]
    refine ⟨h.compares, ?_, ?_, ?_⟩
    · intro id' r' hl
      rcases hentry id' r' hl with ⟨_, rfl⟩ | ⟨_, hlookup⟩
      · exact hr.1
      · exact h.live id' r' hlookup
    · intro id' id'' r' hl hl'
      rcases hentry id' r' hl with ⟨rfl, rfl⟩ | ⟨_, hlookup⟩
      · rcases hentry id'' r' hl' with ⟨rfl, _⟩ | ⟨_, hlookup'⟩
        · rfl
        · exact absurd hlookup' (hr.2 id'')
      · rcases hentry id'' r' hl' with ⟨_, rfl⟩ | ⟨_, hlookup'⟩
        · exact absurd hlookup (hr.2 id')
        · exact h.inj id' id'' r' hlookup hlookup'
    · -- The key of an old node has an entry still, and that of the new one is the new entry.
      have hold : ∀ x r', idx.sl.nodes.objAt? x = some r' →
          ∃ id', (idx.ri.insert id r).lookup id' = some r' := by
        intro x r' hx
        obtain ⟨id', hl⟩ := h.owned x r' hx
        obtain ⟨hid, hlookup⟩ := lookup_of_erase hl
        exact ⟨id', by rwa [Finmap.lookup_insert_of_ne _ hid]⟩
      intro x r' hx
      rcases objAt?_skiplistInsert hinsert with hobj | hobj
      · exact hold x r' ((hobj x).symm.trans hx)
      · have hx' := (hobj x).symm.trans hx
        split_ifs at hx' with hnext
        · obtain rfl := Option.some.inj hx'
          exact ⟨id, Finmap.lookup_insert _⟩
        · exact hold x r' hx'

/-- A new key belongs to no id. -/
theorem allocKey (ri : Finmap fun _ : SIId => KeyRef) (h : Held { idx with ri := ri })
    (vals : List SIValue) :
    Ends (allocKey idx vals) .released fun r =>
      Held { r.1 with ri := ri } ∧ KeyFree { r.1 with ri := ri } r.2 ∧ r.1.ri = idx.ri := by
  refine Ends.bind (P := fun _ => True) ⟨?_, fun _ _ => trivial⟩ fun mk _ _ => ends_ok ?_
  · unfold siNewMultiKey
    split_ifs
    · exact avoids_ok _
    · exact avoids_error (by decide)
  · refine ⟨h.withKeys fun id r hl => live_alloc (h.live id r hl) mk, ⟨?_, fun id hl => ?_⟩, rfl⟩
    · exact Store.live_iff.2 ⟨mk, Store.cell_alloc_self _ _⟩
    · obtain ⟨k, hk⟩ := Store.live_iff.1 (h.live id _ hl)
      exact Store.ne_next hk rfl

/-- A key that no id has can be released. -/
theorem freeKey (h : Held idx) (hr : KeyFree idx r) : Ends (idx.freeKey r) .released Held := by
  refine Ends.bind (P := fun _ => True) ⟨readsLive_readKey hr.1, fun _ _ => trivial⟩ fun _ _ _ => ?_
  refine ends_ok (h.withKeys fun id r' hl => live_free (h.live id r' hl) ?_)
  rintro rfl
  exact hr.2 id hl

theorem replaceEntry (h : Held idx) (hown : OwnNode idx id) (vals : List SIValue)
    {key : Option KeyRef} (hkey : ∀ r ∈ key, KeyFree idx r) (level : Level) :
    Ends (replaceEntry idx id vals key level) .released fun r => Held r.1 := by
  refine (h.dropExisting hown).bind fun idx₁ _ ⟨h₁, hri, hkeep⟩ => ?_
  rw [← hri] at h₁
  cases key with
  | none =>
      refine (allocKey _ h₁ vals).bind fun r _ ⟨h₂, hfree, hri₂⟩ => ?_
      rw [← hri₂] at h₂ hfree
      exact (h₂.storeEntry hfree level).bind fun idx' _ h' => ends_ok h'
  | some r =>
      have hfree := hkeep r (hkey r rfl)
      have hfree' : KeyFree { idx₁ with ri := idx₁.ri.erase id } r :=
        ⟨hfree.1, fun id' hl => hfree.2 id' (lookup_of_erase hl).2⟩
      refine Ends.bind (ends_ok (P := fun p => p = (idx₁, r)) rfl) fun p _ hp => ?_
      subst hp
      exact (h₁.storeEntry hfree' level).bind fun idx' _ h' => ends_ok h'

end Held

end Drop

/-! ## Changes -/

/-- Where the change drops the entry of its id, the id has a node of its own, if any node uses its
tuple.  An ADD to a unique index drops the entry when it does not find the new tuple. -/
def ReleasesOwn (idx : CompoundIndex) (ch : SIChange) : Prop :=
  match ch.type with
  | .chAdd =>
      ch.v.length = idx.numFuncs.toNat →
        if idx.spec.isUnique then
          ∀ r, allocKey idx ch.v = .ok r → skiplistFind r.1.compare r.1.sl r.2 = .ok none →
            OwnNode r.1 ch.id
        else
          OwnNode idx ch.id
  | .chDel => OwnNode idx ch.id
  | .unknown => True

instance (idx : CompoundIndex) (ch : SIChange) : Decidable (ReleasesOwn idx ch) :=
  match h : ch.type with
  | .chAdd =>
      decidable_of_iff (ch.v.length = idx.numFuncs.toNat →
        if idx.spec.isUnique then
          ∀ r, allocKey idx ch.v = .ok r → skiplistFind r.1.compare r.1.sl r.2 = .ok none →
            OwnNode r.1 ch.id
        else
          OwnNode idx ch.id) (by simp [ReleasesOwn, h])
  | .chDel => decidable_of_iff (OwnNode idx ch.id) (by simp [ReleasesOwn, h])
  | .unknown => .isTrue (by simp [ReleasesOwn, h])

namespace Held

variable {idx : CompoundIndex}

theorem applyDel (h : Held idx) {id : SIId} (hown : OwnNode idx id) :
    Ends (compoundIndexApplyDel idx id) .released fun r => Held r.1 := by
  unfold compoundIndexApplyDel
  cases hl : idx.ri.lookup id with
  | none => exact ends_ok h
  | some oldkey =>
      refine (h.dropEntry hl hown).bind fun idx' _ ⟨h', hri, _⟩ => ends_ok ?_
      rw [hri]
      exact h'

theorem applyAdd (h : Held idx) (id : SIId) (vals : List SIValue)
    (hown : if idx.spec.isUnique then
        ∀ r, Secondary.allocKey idx vals = .ok r →
          skiplistFind r.1.compare r.1.sl r.2 = .ok none → OwnNode r.1 id
      else OwnNode idx id) (level : Level) :
    Ends (compoundIndexApplyAdd idx id vals level) .released fun r => Held r.1 := by
  unfold compoundIndexApplyAdd
  split_ifs at hown ⊢
  · refine (allocKey idx.ri h vals).bind fun r hr ⟨h₁, hfree, hri⟩ => ?_
    have h₁' : Held r.1 := by
      rw [← hri] at h₁
      exact h₁
    have hfree' : KeyFree r.1 r.2 := by
      rw [← hri] at hfree
      exact hfree
    have hreads := readsLive_skiplistFind (asksLive_compare h₁' hfree'.1)
    refine hreads.ends.bind fun f hf _ => ?_
    cases f with
    | none => exact h₁'.replaceEntry (hown r hr hf) vals (by simpa using hfree') level
    | some n =>
        refine (Nodes.readsLive_node.ends).bind fun x _ _ => ?_
        refine (Avoids.ends (avoids_orFault (by decide))).bind fun val _ _ => ?_
        refine (h₁'.freeKey hfree').bind fun idx' _ h' => ?_
        split_ifs
        · exact ends_ok h'
        · exact ends_ok h'
  · exact h.replaceEntry hown vals (by simp) level

theorem applyChange (h : Held idx) {ch : SIChange} (hown : ReleasesOwn idx ch) (level : Level) :
    Ends (compoundIndexApplyChange idx ch level) .released fun r => Held r.1 := by
  unfold compoundIndexApplyChange
  unfold ReleasesOwn at hown
  cases htype : ch.type with
  | chAdd =>
      rw [htype] at hown
      dsimp only at hown ⊢
      split_ifs with harity
      · exact ends_ok h
      · exact h.applyAdd ch.id ch.v (hown (not_not.1 harity)) level
  | chDel =>
      rw [htype] at hown
      exact h.applyDel hown
  | unknown => exact ends_ok h

theorem apply (h : Held idx) {cs : List (SIChange × Level)} (hown : EveryChange ReleasesOwn idx cs) :
    Ends (compoundIndexApply idx cs) .released fun r => Held r.1 := by
  induction cs generalizing idx with
  | nil => exact ends_ok h
  | cons ch cs ih =>
      refine (h.applyChange hown.1 ch.2).bind fun r hr h' => ?_
      split_ifs with hcode
      · exact ends_ok h'
      · exact ih h' (hown.2 r.1 r.2 hr (by tauto))

theorem applyStep (h : Held idx) {cs : List (SIChange × Level)}
    (hown : EveryChange ReleasesOwn idx cs) : Ends (applyStep idx cs) .released Held :=
  (h.apply hown).bind fun _ _ h' => ends_ok h'

end Held

theorem held_new {spec : SISpec} {idx : CompoundIndex} (h : siNewCompoundIndex spec = .ok idx) :
    Held idx := by
  obtain ⟨hinv, _⟩ := indexInv_new h
  obtain ⟨fs, _, heq⟩ := bind_eq_ok.1 h
  obtain rfl := Except.ok.inj heq
  exact
    { compares := comparesLive_of_cmpFuncsOf hinv.cmpFuncs
      live := by simp
      inj := by simp
      owned := by
        intro x r hx
        have hx' := hx
        simp only [skiplistCreate, Nodes.objAt?, Store.alloc] at hx'
        split_ifs at hx' <;> simp at hx' }

/-! ## Well-typed tuples -/

namespace IndexInv

variable {idx : CompoundIndex} {bs : List (Bucket KeyRef SIId)} {id : SIId} {r : KeyRef}

/-- Where tuples are of the columns' types, a search for the tuple of an id ends at the node of
this id, which is the one that uses the tuple, if any does. -/
theorem find_own (h : IndexInv idx bs) (hl : idx.ri.lookup id = some r) {x : Nat}
    {n : SkiplistNode KeyRef SIId} (hn : idx.sl.nodes.cell x = some n) (hobj : n.obj = some r) :
    skiplistFind idx.compare idx.sl r = .ok (some x) ∧
      (id :: remainingVals strcmp (some id) n.vals).Perm n.vals := by
  have hlive := h.live id r hl
  have hx : idx.sl.nodes.objAt? x = some r := by simp [Nodes.objAt?, hn, hobj]
  obtain ⟨d, hd, rfl⟩ := h.rep.only x r hx
  have hkey : d.key = r := Option.some.inj ((h.rep.obj d hd).symm.trans hx)
  have hvals : n.vals = d.vals := by
    have := h.rep.vals d hd
    rw [Nodes.valsAt?, hn] at this
    exact Option.some.inj this
  have hzero : idx.refCmp d.key r = 0 := by
    rw [hkey]
    exact h.preorder.refl hlive
  obtain ⟨as, b, cs, rfl, hid, hbelow, hhit, habove⟩ := h.entry hl
  -- The node that uses the tuple is the one whose key compares equal to it.
  have hdb : d = b := by
    rcases List.mem_append.1 hd with hd | hd
    · exact absurd hzero (Int.ne_of_lt (hbelow d hd))
    · rcases List.mem_cons.1 hd with hd | hd
      · exact hd
      · exact absurd hzero (Int.ne_of_lt (habove d hd)).symm
  subst hdb
  have hfind := h.rep.find (h.compares hlive) (h.position hlive)
  have hnone : as.find? (fun b => decide (idx.refCmp b.key r = 0)) = none := by
    refine List.find?_eq_none.2 fun a ha => ?_
    simpa using Int.ne_of_lt (hbelow a ha)
  rw [List.find?_append, hnone, Option.none_or, List.find?_cons_of_pos (by simpa using hhit)] at hfind
  refine ⟨hfind, ?_⟩
  rw [hvals]
  exact remainingVals_perm hid

/-- There the condition on a change is that no other id is in the node. -/
theorem ownNode_iff (h : IndexInv idx bs) (id : SIId) : OwnNode idx id ↔ KeyNotShared idx id := by
  constructor
  · intro hown r hl x n hn hobj
    have hperm := (h.find_own hl hn hobj).2
    rw [(hown r hl x n hn hobj).1] at hperm
    exact List.perm_singleton.1 hperm.symm
  · intro hk r hl x n hn hobj
    obtain ⟨hfind, hperm⟩ := h.find_own hl hn hobj
    have hlen := hperm.length_eq
    rw [hk r hl x n hn hobj] at hlen ⊢
    refine ⟨List.length_eq_zero_iff.1 (by simpa using hlen), fun f hf => ?_⟩
    exact (Except.ok.inj (hfind.symm.trans hf)).symm

end IndexInv

/-! ## The keys of an index are live -/

/-- No comparison of the operations of an index reads a released key. -/
structure ReadsOnlyLive (idx : CompoundIndex) : Prop where
  apply : ∀ cs, EveryChange ReleasesOwn idx cs → ReadsLive (compoundIndexApply idx cs)
  find : ∀ q, ReadsLive (compoundIndexFind idx q)
  next : ∀ sc, ReadsLive (scanNext idx sc)
  traverse : ReadsLive (compoundIndexTraverse idx)

theorem Held.readsOnlyLive {idx : CompoundIndex} (h : Held idx) : ReadsOnlyLive idx where
  apply := fun _ hown => (h.apply hown).1
  find := readsLive_compoundIndexFind h
  next := fun sc => readsLive_scanLoop h _ sc
  traverse := readsLive_walkLoop h _ _ _

/-- Every key that a node or the reverse index uses is live in every state that a run reaches, and
no operation on that state reads a released key, where no change of the run releases a key that a
node goes on using. -/
theorem compoundIndex_keysLive {spec : SISpec} {idx₀ : CompoundIndex}
    (hnew : siNewCompoundIndex spec = .ok idx₀) {css : List (List (SIChange × Level))}
    (hown : Every applyStep (EveryChange ReleasesOwn) idx₀ css) :
    ReadsLive (run applyStep idx₀ css) ∧
      ∀ idx, run applyStep idx₀ css = .ok idx → KeysLive idx ∧ ReadsOnlyLive idx := by
  have hends := ends_run (fun _ _ h hown => Held.applyStep h hown) css idx₀ (held_new hnew) hown
  exact ⟨hends.1, fun idx hrun => ⟨(hends.2 idx hrun).keysLive, (hends.2 idx hrun).readsOnlyLive⟩⟩

/-- Of two ids that share a node, the one that the node's key is from stays. -/
theorem compoundIndex_keysLive_int :
    ∃ idx₀, siNewCompoundIndex (oneColumn .int32 0) = .ok idx₀ ∧
      ∃ idx, run applyStep idx₀
          [[add idA (.int32 1), add idB (.int32 1)], [del idB], [add idA (.int32 2)]] = .ok idx ∧
        KeysLive idx ∧ ReadsOnlyLive idx := by
  obtain ⟨idx₀, hnew⟩ : ∃ idx₀, siNewCompoundIndex (oneColumn .int32 0) = .ok idx₀ := ⟨_, rfl⟩
  have hown : Every applyStep (EveryChange ReleasesOwn) idx₀
      [[add idA (.int32 1), add idB (.int32 1)], [del idB], [add idA (.int32 2)]] := by
    cases hnew
    decide +kernel
  obtain ⟨idx, hrun⟩ : ∃ idx, run applyStep idx₀
      [[add idA (.int32 1), add idB (.int32 1)], [del idB], [add idA (.int32 2)]] = .ok idx := by
    cases hnew
    exact ⟨_, rfl⟩
  exact ⟨idx₀, hnew, idx, hrun, (compoundIndex_keysLive hnew hown).2 idx hrun⟩

/-- The one that the node's key is from leaves: its key is released and is still the node's, and
the next search reads it. -/
theorem compoundIndex_sharedKeyRun_released :
    ∃ idx₀, siNewCompoundIndex (oneColumn .int32 0) = .ok idx₀ ∧
      (∃ idx, run applyStep idx₀ (sharedKeyRun.take 3) = .ok idx ∧ ¬KeysLive idx) ∧
      run applyStep idx₀ sharedKeyRun = .error .released := by
  refine ⟨_, rfl, ⟨_, rfl, fun h => ?_⟩, rfl⟩
  exact absurd (h.node 1 0 rfl) (by decide)

end Secondary
