import Secondary.AofSpec
import Secondary.Proxy

/-!
# HashIndexSpec — the index of hashes and the hashes

After a command of IDX.INTO the index should hold, for every key that the command names, the values
that are now in the hash, or nothing if there is no hash.  Redis is a parameter here; `Documented`
says what the proofs use of it.
-/

namespace Secondary

open Lib Lib.Traced

/-! ## Redis -/

def hashWriteCommands : List (List UInt8) :=
  [ascii "HDEL", ascii "HINCRBY", ascii "HINCRBYFLOAT", ascii "HMSET", ascii "HSET", ascii "HSETNX"]

/-- The reply is the one of a command that has been executed. -/
def ReplyType.Succeeded (t : ReplyType) : Prop :=
  t ≠ .error ∧ t ≠ .unknown

instance : DecidablePred ReplyType.Succeeded := fun t =>
  inferInstanceAs (Decidable (t ≠ .error ∧ t ≠ .unknown))

/-- A hash is at the key. -/
def HoldsHash (db : Keyspace) (key : RedisModuleString) : Prop :=
  ∃ fields, db key = some (.hash fields)

/-- What is documented of the commands that IDX.INTO supports. -/
structure Documented (call : RedisCall) : Prop where
  /-- A hash command changes no other key than the one it names. -/
  frame : ∀ {db : Keyspace} {cmd key key' : RedisModuleString} {args : List RedisModuleString},
    cmd ∈ hashWriteCommands → key' ≠ key →
      (call db (cString cmd) (key :: args)).1 key' = db key'
  /-- A hash command fails at a key that holds something else. -/
  wrongtype : ∀ {db : Keyspace} {cmd key : RedisModuleString} {args : List RedisModuleString},
    cmd ∈ hashWriteCommands → (call db (cString cmd) (key :: args)).2.Succeeded →
      db key = none ∨ HoldsHash db key
  /-- DEL removes the keys it names and replies how many there were. -/
  del : ∀ (db : Keyspace) {keys : List RedisModuleString}, keys ≠ [] →
    (call db (cString (ascii "DEL")) keys).2 = .integer ∧
      ∀ key, (call db (cString (ascii "DEL")) keys).1 key = if key ∈ keys then none else db key

/-! ## Hashes and tuples -/

/-- `v` is the value of the column in the hash, NULL for a field that is not there. -/
def ColumnValue (strtod : List UInt8 → Strtod) (fields : RedisHash) (p : SIIndexProperty)
    (v : SIValue) : Prop :=
  ∃ name, p.name = some name ∧
    ((fields.lookup name.bytes = none ∧ v = .null) ∨
      ∃ val, fields.lookup name.bytes = some val ∧ siParseValue strtod p.type val = some v)

/-- All indexed fields of the hash parse, and `vals` are their values. -/
def FieldsTuple (strtod : List UInt8 → Strtod) (fields : RedisHash) (spec : SISpec)
    (vals : SIMultiKey) : Prop :=
  List.Forall₂ (ColumnValue strtod fields) spec.properties vals

section Fields

variable {strtod : List UInt8 → Strtod} {fields : RedisHash}

theorem hashValue_eq_some {p : SIIndexProperty} {name : CString} (hname : p.name = some name)
    {v : SIValue} :
    hashValue strtod p.type (fields.lookup name.bytes) = some v ↔ ColumnValue strtod fields p v := by
  simp only [ColumnValue, hname, Option.some.injEq]
  cases hfield : fields.lookup name.bytes with
  | none => simp [hashValue, hfield, eq_comm]
  | some val => simp [hashValue, hfield]

variable (strtod fields) in
/-- Where every column has a name, the loop over the columns reads the tuple of the hash, or it
stops at a field that is not parsed. -/
theorem hashValues_spec :
    ∀ {ps : List SIIndexProperty}, (∀ p ∈ ps, p.name ≠ none) →
      ∃ o, hashValues strtod fields ps = .ok o ∧
        ∀ vals, o = some vals ↔ List.Forall₂ (ColumnValue strtod fields) ps vals := by
  intro ps
  induction ps with
  | nil =>
      intro _
      exact ⟨some [], rfl, by simp [eq_comm]⟩
  | cons p ps ih =>
      intro hnamed
      obtain ⟨name, hname⟩ := Option.ne_none_iff_exists'.1 (hnamed p (by simp))
      obtain ⟨o, ho, hspec⟩ := ih fun q hq => hnamed q (List.mem_cons_of_mem _ hq)
      cases hv : hashValue strtod p.type (fields.lookup name.bytes) with
      | none =>
          refine ⟨none, by simp [hashValues, hname, hv], fun vals => ?_⟩
          simp only [reduceCtorEq, false_iff]
          rintro (_ | ⟨hcol, _⟩)
          rw [(hashValue_eq_some hname).2 hcol] at hv
          cases hv
      | some v =>
          refine ⟨o.map fun vs => v :: vs, by simp [hashValues, hname, hv, ho], fun vals => ?_⟩
          have hcol := (hashValue_eq_some hname).1 hv
          rw [Option.map_eq_some_iff]
          constructor
          · rintro ⟨vs, hvs, rfl⟩
            exact .cons hcol ((hspec vs).1 hvs)
          · rintro (_ | ⟨hcol', hrest⟩)
            rename_i v' vs
            obtain rfl : v = v' :=
              Option.some.inj (hv.symm.trans ((hashValue_eq_some hname).2 hcol'))
            exact ⟨vs, (hspec vs).2 hrest, rfl⟩

end Fields

/-- What the index holds for a key.  An id ends at its first NUL, so it holds nothing for a key that
has one. -/
def CompoundIndex.tupleOf (idx : CompoundIndex) (key : RedisModuleString) : Option SIMultiKey :=
  if 0 ∈ key then none else idx.content (cString key)

/-! ## Following -/

/-- A hash is at the key, all its indexed fields parse, and `vals` are their values. -/
def HasTuple (strtod : List UInt8 → Strtod) (db : Keyspace) (spec : SISpec)
    (key : RedisModuleString) (vals : SIMultiKey) : Prop :=
  ∃ fields, db key = some (.hash fields) ∧ FieldsTuple strtod fields spec vals

theorem HasTuple.holdsHash {strtod : List UInt8 → Strtod} {db : Keyspace} {spec : SISpec}
    {key : RedisModuleString} {vals : SIMultiKey} (h : HasTuple strtod db spec key vals) :
    HoldsHash db key := by
  obtain ⟨fields, hfields, _⟩ := h
  exact ⟨fields, hfields⟩

/-- What the index holds for the key is what Redis holds, or the client got an error. -/
structure Follows (strtod : List UInt8 → Strtod) (db : Keyspace) (r : RedisIndex)
    (reply : ProxyReply) (key : RedisModuleString) : Prop where
  gone : ¬HoldsHash db key → r.idx.tupleOf key = none
  current : ∀ vals, HasTuple strtod db r.spec key vals →
    r.idx.tupleOf key = some vals ∨ ∃ msg, reply = .error msg

/-- The keys that a command with these arguments names. -/
def namedKeys (cmd : RedisModuleString) (args : List RedisModuleString) : List RedisModuleString :=
  if cmd = ascii "DEL" then args else args.take 1

/-- After the command the index at `index` follows all keys that the command names. -/
def IntoFollows (host : Host) (fuel : Nat) (db : Keyspace)
    (into index cmd : RedisModuleString) (args : List RedisModuleString) : Prop :=
  ∃ db' reply r', indexIntoCommand host fuel db (into :: index :: cmd :: args) = .ok (db', reply) ∧
    db' index = some (.index r') ∧
    ∀ key ∈ namedKeys cmd args, Follows host.strtod db' r' reply key

/-- What the write has left at `key` can be brought into the index.  A hash that is gone must not be
in the index.  A key with a NUL has no id of its own: the handler goes to the key that ends there,
and it only fails where that one has no tuple.  In a UNIQUE index the ADD must not meet a tuple that
compares equal, of another id or, if it is not the same tuple, of this one. -/
structure Reindexes (strtod : List UInt8 → Strtod) (db : Keyspace) (r : RedisIndex)
    (key : RedisModuleString) : Prop where
  gone : ¬HoldsHash db key → r.idx.tupleOf key = none
  cut : 0 ∈ key → ∀ vals, HasTuple strtod db r.spec key vals →
    ∀ vals', ¬HasTuple strtod db r.spec (cString key).bytes vals'
  stored : 0 ∉ key → ∀ vals, HasTuple strtod db r.spec key vals → r.spec.isUnique = true →
    ¬r.idx.Conflict (cString key) vals ∧
      ∀ k, r.idx.content (cString key) = some k → CompareEqual r.idx.cmpFuncs k vals → k = vals

/-- The DEL changes for some keys. -/
def deleteChanges (draw : Nat → Level) : Nat → List RedisModuleString → List (SIChange × Level)
  | _, [] => []
  | n, key :: keys =>
      ({ type := .chDel, id := cString key, v := [] }, draw n) :: deleteChanges draw (n + 1) keys

/-- The ADD change for a hash, if there is one and it is parsed. -/
def reindexChanges (strtod : List UInt8 → Strtod) (draw : Nat → Level) (db : Keyspace)
    (spec : SISpec) (key : RedisModuleString) : List (SIChange × Level) :=
  match db (cString key).bytes with
  | some (.hash fields) =>
      match hashValues strtod fields spec.properties with
      | .ok (some vals) => [({ type := .chAdd, id := cString key, v := vals }, draw 0)]
      | _ => []
  | _ => []

/-- The changes to the index that a command makes. -/
def intoChanges (host : Host) (db : Keyspace) (spec : SISpec) (cmd : RedisModuleString)
    (args : List RedisModuleString) : List (SIChange × Level) :=
  if cmd = ascii "DEL" then
    deleteChanges host.draw 0 args
  else
    reindexChanges host.strtod host.draw (host.call db (cString cmd) args).1 spec (args.headD [])

/-- What decides whether the index follows the keys of a command. -/
def Followable (host : Host) (db : Keyspace) (r : RedisIndex) (index cmd : RedisModuleString)
    (args : List RedisModuleString) : Prop :=
  if cmd = ascii "DEL" then
    index ∉ args
  else
    ∀ key ∈ args.take 1, Reindexes host.strtod (host.call db (cString cmd) args).1 r key

/-! ## One change -/

section Change

variable {spec : SISpec} {idx : CompoundIndex} {id : SIId} {vals : SIMultiKey}

/-- An ADD of the hash's tuple puts it into the index, unless a UNIQUE index holds one that compares
equal: for another id, or for the same one and not the very same tuple. -/
theorem add_content_iff (h : Inv spec idx) (hvals : KeyOk spec.types vals)
    (hk : spec.isUnique = true ∨ KeyNotShared idx id) (level : Level) :
    ∃ idx' code, compoundIndexApply idx [({ type := .chAdd, id := id, v := vals }, level)] =
        .ok (idx', code) ∧
      (idx'.content id = some vals ↔
        (spec.isUnique = true → ¬idx.Conflict id vals ∧
          ∀ k, idx.content id = some k → CompareEqual idx.cmpFuncs k vals → k = vals)) := by
  obtain ⟨rfl, bs, hinv⟩ := h
  have happly : ∀ idx' code, compoundIndexApplyAdd idx id vals level = .ok (idx', code) →
      ∃ code', compoundIndexApply idx [({ type := .chAdd, id := id, v := vals }, level)] =
        .ok (idx', code') := by
    intro idx' code hrun
    have hchange : compoundIndexApplyChange idx { type := .chAdd, id := id, v := vals } level =
        .ok (idx', code) := by
      simp [compoundIndexApplyChange, hinv.numFuncs, hvals.length_eq, hrun]
    by_cases hstop : code ≠ siIndexOk ∧ code ≠ siIndexNotfound
    · exact ⟨code, by simp [compoundIndexApply, hchange, hstop]⟩
    · exact ⟨siIndexOk, by simp [compoundIndexApply, hchange, hstop]⟩
  cases hu : idx.spec.isUnique with
  | false =>
      have hshared : KeyNotShared idx id := hk.resolve_left (by simp [hu])
      obtain ⟨idx', _, hrun, _, _, hcontent⟩ := hinv.replaceEntry_none hu hvals
        (fun _ hl => hinv.vals_of_keyNotShared hshared hl) level
      obtain ⟨code', happly'⟩ := happly idx' siIndexOk (by simp [compoundIndexApplyAdd, hu, hrun])
      exact ⟨idx', code', happly', by simp [hcontent]⟩
  | true =>
      obtain ⟨idx', _, code, hrun, _, _, hadded, hown⟩ :=
        hinv.applyAdd_unique hu hvals id level
      obtain ⟨code', happly'⟩ := happly idx' code hrun
      refine ⟨idx', code', happly', ?_⟩
      simp only [forall_const]
      cases hadded with
      | duplicate _ conflict _ _ _ content =>
          -- The id does not hold `vals` either: no two ids hold tuples that compare equal.
          obtain ⟨id', k, hne, hk', hequal⟩ := conflict
          rw [content id]
          constructor
          · intro hself
            have hno := hinv.single_iff.2 (hinv.unique hu)
            exact absurd (hno id' id k vals hk' hself hequal) hne
          · rintro ⟨halone, _⟩
            exact absurd ⟨id', k, hne, hk', hequal⟩ halone
      | kept _ own equal alone content =>
          rw [content id, own, Option.some.injEq]
          constructor
          · rintro rfl
            exact ⟨alone, fun k' hk' _ => (Option.some.inj hk').symm⟩
          · rintro ⟨_, hsame⟩
            exact hsame _ rfl equal
      | stored alone content =>
          simp only [content id, if_true, true_iff]
          refine ⟨alone hu, fun k hk' hequal => ?_⟩
          have hsame := hown k hk' hequal id
          rw [content id, if_pos rfl, hk'] at hsame
          exact (Option.some.inj hsame).symm

end Change

/-! ## Commands -/

section Commands

variable {strtod : List UInt8 → Strtod} {cmd key index : RedisModuleString}
  {args : List RedisModuleString}

variable (strtod key args) in
/-- A hash command is followed by the handler that reads the hash, for its one key. -/
theorem hashWrite_transaction (hcmd : cmd ∈ hashWriteCommands) :
    cmd ≠ ascii "DEL" ∧
      hashIndexGetHandler strtod cmd = some (reindexHashHandler strtod) ∧
      hashIndexGetIdsForCommand strtod (cmd :: key :: args) = some (.staticIdSource [key]) := by
  simp only [hashWriteCommands, List.mem_cons, List.not_mem_nil, or_false] at hcmd
  rcases hcmd with rfl | rfl | rfl | rfl | rfl | rfl <;> exact ⟨by decide, rfl, rfl⟩

variable (strtod key args) in
/-- DEL is followed by the handler that deletes, for all its keys. -/
theorem del_transaction :
    hashIndexGetHandler strtod (ascii "DEL") = some deleteHandler ∧
      hashIndexGetIdsForCommand strtod (ascii "DEL" :: key :: args) =
        some (.staticIdSource (key :: args)) :=
  ⟨rfl, rfl⟩

/-- The rounds of a command without WHERE, for the keys that are left. -/
def keysLoop (host : Host) (index : RedisModuleString) (argv : List RedisModuleString)
    (handler : IndexedCommandProxy) (fuel : Nat) (db : Keyspace) (keys : List RedisModuleString)
    (num : Nat) : Exec (Keyspace × ProxyReply) :=
  forget ProxyFault.fault
    (intoLoop host index false argv handler fuel db (.staticIdSource keys) num)

section Rounds

variable {host : Host} {handler : IndexedCommandProxy} {fuel num : Nat} {db : Keyspace}
  {keys : List RedisModuleString}

theorem keysLoop_nil :
    keysLoop host index (cmd :: args) handler (fuel + 1) db [] num = .ok (db, .longLong num) := rfl

/-- One round, where Redis answers the command. -/
theorem keysLoop_cons (hreply : (host.call db (cString cmd) args).2 ≠ .error) :
    keysLoop host index (cmd :: args) handler (fuel + 1) db (key :: keys) num =
      handler index (host.call db (cString cmd) args).1 (cString key).bytes (host.draw num) >>=
        fun rc =>
          if rc.2 ≠ redismoduleOk then
            .ok (rc.1, .error (ascii "Command performed but updating index failed"))
          else
            keysLoop host index (cmd :: args) handler fuel rc.1 keys (num + 1) := by
  simp only [keysLoop, intoLoop, nextId, forget_bind, forget_inner, ok_bind, Bool.false_eq_true,
    if_false, forget_proxyCall, if_pos hreply]
  refine bind_congr fun rc => ?_
  by_cases hrc : rc.2 ≠ redismoduleOk
  · simp only [if_pos hrc, forget_answer]
  · simp only [if_neg hrc]

end Rounds

/-- Without WHERE the command starts at the third argument. -/
theorem indexIntoCommand_loop {host : Host} {fuel : Nat} {db : Keyspace} {into : RedisModuleString}
    {r : RedisIndex} (hdb : db index = some (.index r))
    (hwhere : rmUtilArgExists (ascii "WHERE") (into :: index :: cmd :: key :: args) 0 = 0)
    {handler : IndexedCommandProxy} (hhandler : hashIndexGetHandler host.strtod cmd = some handler)
    {keys : List RedisModuleString}
    (hids : hashIndexGetIdsForCommand host.strtod (cmd :: key :: args) =
      some (.staticIdSource keys)) :
    indexIntoCommand host fuel db (into :: index :: cmd :: key :: args) =
      keysLoop host index (cmd :: key :: args) handler fuel db keys 0 := by
  have hargs : ¬(into :: index :: cmd :: key :: args).length < 4 := by simp
  simp only [indexIntoCommand, indexIntoRun, if_neg hargs, forget_bind, forget_argAt,
    List.getElem?_cons_succ, List.getElem?_cons_zero, orFault_some, ok_bind, hdb, hwhere, ne_eq,
    not_true_eq_false, false_and, if_false, intoCommand, createIndexedTransaction, forget_emit,
    List.drop_succ_cons, List.drop_zero, hhandler, hids, forget_pure, decide_false]
  rfl

end Commands

/-! ## DEL -/

section Delete

variable {spec : SISpec} {db : Keyspace} {index : RedisModuleString} {r : RedisIndex}

theorem setIndex_self : db.setIndex index r index = some (.index r) :=
  Function.update_self index _ db

theorem setIndex_of_ne {key : RedisModuleString} (h : key ≠ index) :
    db.setIndex index r key = db key :=
  Function.update_of_ne h _ db

/-- `deleteHandler` takes the id out of the index. -/
theorem deleteHandler_spec (hdb : db index = some (.index r)) (h : Inv spec r.idx) {id : SIId}
    (hk : spec.isUnique = true ∨ KeyNotShared r.idx id) (level : Level) :
    ∃ idx' code, deleteHandler index db id.bytes level =
        .ok (db.setIndex index { r with idx := idx' }, redismoduleOk) ∧
      compoundIndexApplyChange r.idx { type := .chDel, id := id, v := [] } level =
        .ok (idx', code) ∧
      (code = siIndexOk ∨ code = siIndexNotfound) ∧ Inv spec idx' ∧
      ∀ id', idx'.content id' = if id' = id then none else r.idx.content id' := by
  have htyped : SIChange.Typed spec.types { type := .chDel, id := id, v := [] } := by
    rintro ⟨⟩
  obtain ⟨idx', code, hrun, hinv, _, hchanged⟩ :=
    h.applyChange htyped (hk.imp_right fun hk _ => hk) level
  have hcode : code = siIndexOk ∨ code = siIndexNotfound := by
    cases hchanged with
    | rejected bad => simp at bad
    | missing _ _ => exact Or.inr rfl
    | removed _ _ => exact Or.inl rfl
    | added type _ _ => cases type
  have hcontent : ∀ id', idx'.content id' = if id' = id then none else r.idx.content id' := by
    cases hchanged with
    | rejected bad => simp at bad
    | missing _ absent =>
        intro id'
        by_cases hid : id' = id
        · rw [if_pos hid, hid]
          exact absent
        · rw [if_neg hid]
    | removed _ content => exact content
    | added type _ _ => cases type
  refine ⟨idx', code, ?_, hrun, hcode, hinv, hcontent⟩
  have hgo : ¬(code ≠ siIndexOk ∧ code ≠ siIndexNotfound) := by tauto
  simp [deleteHandler, openedIndex, hdb, cString_bytes, compoundIndexApply, hrun, hgo]

variable {host : Host} {all : List RedisModuleString}

/-- The rounds of DEL: the command removes all the keys in each round, the handler one id. -/
theorem deleteLoop_spec (hdoc : Documented host.call) (hall : all ≠ []) (hindex : index ∉ all) :
    ∀ {keys : List RedisModuleString} {fuel num : Nat} {db : Keyspace} {r : RedisIndex},
      db index = some (.index r) → Inv spec r.idx →
      keys ≠ [] ∨ (∀ key ∈ all, db key = none) →
      spec.isUnique = true ∨ KeysNotShared r.idx (deleteChanges host.draw num keys) →
      keys.length < fuel →
      ∃ db' reply idx', keysLoop host index (ascii "DEL" :: all) deleteHandler fuel db keys num =
          .ok (db', reply) ∧
        db' index = some (.index { r with idx := idx' }) ∧
        (∀ key ∈ all, db' key = none) ∧
        ∀ id, idx'.content id = if id ∈ keys.map cString then none else r.idx.content id := by
  intro keys
  induction keys with
  | nil =>
      intro fuel num db r hdb _ hgone _ hfuel
      obtain ⟨fuel, rfl⟩ := Nat.exists_eq_add_of_lt hfuel
      exact ⟨db, .longLong num, r.idx, keysLoop_nil, hdb, hgone.resolve_left (by simp),
        by simp⟩
  | cons key keys ih =>
      intro fuel num db r hdb hinv _ hshared hfuel
      cases fuel with
      | zero => simp at hfuel
      | succ fuel =>
          obtain ⟨hreply, hwritten⟩ := hdoc.del db hall
          -- The keys are gone, the index is where it was.
          have hdb₁ : (host.call db (cString (ascii "DEL")) all).1 index = some (.index r) := by
            rw [hwritten index, if_neg hindex, hdb]
          have hkey : spec.isUnique = true ∨ KeyNotShared r.idx (cString key) :=
            hshared.imp_right fun hk => hk.1 (Or.inl rfl)
          obtain ⟨idx₁, code, hhandler, hchange, hcode, hinv₁, hcontent₁⟩ :=
            deleteHandler_spec hdb₁ hinv hkey (host.draw num)
          have hdb₂ : ((host.call db (cString (ascii "DEL")) all).1.setIndex index
              { r with idx := idx₁ }) index = some (.index { r with idx := idx₁ }) := setIndex_self
          have hgone₂ : ∀ key' ∈ all, ((host.call db (cString (ascii "DEL")) all).1.setIndex index
              { r with idx := idx₁ }) key' = none := by
            intro key' hkey'
            have hne : key' ≠ index := fun heq => hindex (heq ▸ hkey')
            rw [setIndex_of_ne hne, hwritten key', if_pos hkey']
          obtain ⟨db', reply, idx', hloop, hdb', hgone', hcontent'⟩ := ih hdb₂ hinv₁ (Or.inr hgone₂)
            (hshared.imp_right fun hk => hk.2 idx₁ code hchange hcode)
            (Nat.lt_of_succ_lt_succ hfuel)
          refine ⟨db', reply, idx', ?_, hdb', hgone', fun id => ?_⟩
          · rw [keysLoop_cons (by simp [hreply]), hhandler]
            simpa using hloop
          · rw [hcontent' id, hcontent₁ id]
            by_cases hid : id = cString key <;> simp [hid]

/-- When the key of the index is among the keys, the handler reads an index that has been freed. -/
theorem deleteLoop_released (hdoc : Documented host.call) (hindex : index ∈ all)
    {key : RedisModuleString} {keys : List RedisModuleString} {fuel num : Nat} :
    keysLoop host index (ascii "DEL" :: all) deleteHandler (fuel + 1) db (key :: keys) num =
      .error .released := by
  obtain ⟨hreply, hwritten⟩ := hdoc.del db (List.ne_nil_of_mem hindex)
  have hgone : (host.call db (cString (ascii "DEL")) all).1 index = none := by
    rw [hwritten index, if_pos hindex]
  rw [keysLoop_cons (by simp [hreply])]
  simp [deleteHandler, openedIndex, hgone]

end Delete

/-! ## The hash commands -/

section Reindex

variable {strtod : List UInt8 → Strtod} {db : Keyspace} {index : RedisModuleString} {r : RedisIndex}
  {key : RedisModuleString}

/-- The tuple of a hash is determined by it. -/
theorem FieldsTuple.unique {fields : RedisHash} {spec : SISpec}
    {vals vals' : SIMultiKey} (hnamed : ∀ p ∈ spec.properties, p.name ≠ none)
    (h : FieldsTuple strtod fields spec vals) (h' : FieldsTuple strtod fields spec vals') :
    vals = vals' := by
  obtain ⟨o, _, ho⟩ := hashValues_spec strtod fields hnamed
  exact Option.some.inj (((ho vals).2 h).symm.trans ((ho vals').2 h'))

/-- Without floating-point columns no tuple of a hash has a NaN. -/
theorem FieldsTuple.keyOk {fields : RedisHash} {spec : SISpec} {vals : SIMultiKey}
    (hexact : ∀ t ∈ spec.types, t ∈ exactTypes) (h : FieldsTuple strtod fields spec vals) :
    KeyOk spec.types vals := by
  have hok : ∀ {ps : List SIIndexProperty} {vals : SIMultiKey},
      (∀ p ∈ ps, p.type ∈ exactTypes) → List.Forall₂ (ColumnValue strtod fields) ps vals →
        KeyOk (ps.map SIIndexProperty.type) vals := by
    intro ps vals hps h
    induction h with
    | nil => exact .nil
    | cons hcol _ ih =>
        refine .cons ?_ (ih fun p hp => hps p (List.mem_cons_of_mem _ hp))
        obtain ⟨_, _, ⟨_, hnull⟩ | ⟨val, _, hparse⟩⟩ := hcol
        · exact Or.inl hnull
        · exact Or.inr (parse_type (hps _ (by simp)) hparse)
  exact hok (fun p hp => hexact p.type (List.mem_map_of_mem hp)) h

/-- `reindexHashHandler` applies an ADD of the tuple, or it fails where there is none. -/
theorem reindexHashHandler_spec (hnamed : ∀ p ∈ r.spec.properties, p.name ≠ none)
    (hdb : db index = some (.index r)) (draw : Nat → Level) :
    (∃ vals, HasTuple strtod db r.spec (cString key).bytes vals ∧
      reindexChanges strtod draw db r.spec key =
        [({ type := .chAdd, id := cString key, v := vals }, draw 0)] ∧
      reindexHashHandler strtod index db (cString key).bytes (draw 0) =
        compoundIndexApply r.idx [({ type := .chAdd, id := cString key, v := vals }, draw 0)] >>=
          fun a => .ok (db.setIndex index { r with idx := a.1 }, redismoduleOk)) ∨
    ((∀ vals, ¬HasTuple strtod db r.spec (cString key).bytes vals) ∧
      reindexHashHandler strtod index db (cString key).bytes (draw 0) = .ok (db, redismoduleErr)) := by
  cases hobj : db (cString key).bytes with
  | none => exact .inr ⟨by simp [HasTuple, hobj], by simp [reindexHashHandler, hobj]⟩
  | some obj =>
      cases obj with
      | index r' => exact .inr ⟨by simp [HasTuple, hobj], by simp [reindexHashHandler, hobj]⟩
      | other => exact .inr ⟨by simp [HasTuple, hobj], by simp [reindexHashHandler, hobj]⟩
      | hash fields =>
          obtain ⟨o, ho, hspec⟩ := hashValues_spec strtod fields hnamed
          cases o with
          | none =>
              refine .inr ⟨?_, by simp [reindexHashHandler, hobj, openedIndex, hdb, ho]⟩
              rintro vals ⟨fields', hfields', htuple⟩
              obtain rfl : fields = fields' := by simpa [hobj] using hfields'
              exact absurd ((hspec vals).2 htuple) (by simp)
          | some vals =>
              refine .inl ⟨vals, ⟨fields, hobj, (hspec vals).1 rfl⟩, ?_, ?_⟩
              · simp [reindexChanges, hobj, ho]
              · simp [reindexHashHandler, hobj, openedIndex, hdb, ho, cString_bytes]

end Reindex

section HashWrite

variable {host : Host} {db : Keyspace} {into index cmd key : RedisModuleString}
  {args : List RedisModuleString} {r : RedisIndex}

/-- The tuples at a key are those that were there before the index was written. -/
theorem hasTuple_setIndex {strtod : List UInt8 → Strtod} {spec : SISpec} {vals : SIMultiKey}
    (h : key ≠ index) :
    HasTuple strtod (db.setIndex index r) spec key vals ↔ HasTuple strtod db spec key vals := by
  rw [HasTuple, HasTuple, setIndex_of_ne h]

theorem HasTuple.unique {strtod : List UInt8 → Strtod} {spec : SISpec} {vals vals' : SIMultiKey}
    (hnamed : ∀ p ∈ spec.properties, p.name ≠ none) (h : HasTuple strtod db spec key vals)
    (h' : HasTuple strtod db spec key vals') : vals = vals' := by
  obtain ⟨fields, hfields, htuple⟩ := h
  obtain ⟨fields', hfields', htuple'⟩ := h'
  obtain rfl : fields = fields' := by simpa [hfields] using hfields'
  exact htuple.unique hnamed htuple'

/-- What is to be shown of a command that names one key. -/
theorem intoFollows_iff {fuel : Nat} {db' : Keyspace} {reply : ProxyReply} {r' : RedisIndex}
    (hkeys : namedKeys cmd (key :: args) = [key])
    (hrun : indexIntoCommand host fuel db (into :: index :: cmd :: key :: args) = .ok (db', reply))
    (hr : db' index = some (.index r')) :
    IntoFollows host fuel db into index cmd (key :: args) ↔
      Follows host.strtod db' r' reply key := by
  simp only [IntoFollows, hrun, hkeys, List.forall_mem_singleton, Except.ok.injEq, Prod.mk.injEq]
  constructor
  · rintro ⟨_, _, r₁, ⟨rfl, rfl⟩, hr₁, hfollows⟩
    obtain rfl : r' = r₁ := by simpa [hr] using hr₁
    exact hfollows
  · intro hfollows
    exact ⟨db', reply, r', ⟨rfl, rfl⟩, hr, hfollows⟩

theorem holdsHash_setIndex (h : key ≠ index) :
    HoldsHash (db.setIndex index r) key ↔ HoldsHash db key := by
  rw [HoldsHash, HoldsHash, setIndex_of_ne h]

/-- After an ADD of the tuple: the index follows the key if the tuple could be brought into it. -/
theorem follows_add_iff {strtod : List UInt8 → Strtod} {vals : SIMultiKey} {idx' : CompoundIndex}
    (hnamed : ∀ p ∈ r.spec.properties, p.name ≠ none) (hne : key ≠ index)
    (htuple : HasTuple strtod db r.spec (cString key).bytes vals)
    (hcontent : idx'.content (cString key) = some vals ↔ (r.spec.isUnique = true →
      ¬r.idx.Conflict (cString key) vals ∧ ∀ k, r.idx.content (cString key) = some k →
        CompareEqual r.idx.cmpFuncs k vals → k = vals)) (n : Nat) :
    Follows strtod (db.setIndex index { r with idx := idx' }) { r with idx := idx' } (.longLong n)
      key ↔ Reindexes strtod db r key := by
  by_cases hnul : 0 ∈ key
  · -- The id is the one of another key.
    have htupleOf : ∀ idx : CompoundIndex, idx.tupleOf key = none := fun _ => if_pos hnul
    constructor
    · intro hfollows
      refine ⟨fun _ => htupleOf _, fun _ vals' htuple' => ?_, fun h0 => absurd hnul h0⟩
      have hheld := hfollows.current vals' ((hasTuple_setIndex hne).2 htuple')
      simp [htupleOf] at hheld
    · intro hok
      refine ⟨fun _ => htupleOf _, fun vals' htuple' => ?_⟩
      exact absurd htuple (hok.cut hnul vals' ((hasTuple_setIndex hne).1 htuple') vals)
  · rw [cString_bytes_of_notMem hnul] at htuple
    -- The id is the whole key, so its entry is the tuple just added.
    have htupleOf : ∀ idx : CompoundIndex, idx.tupleOf key = idx.content (cString key) :=
      fun _ => if_neg hnul
    constructor
    · intro hfollows
      have hheld := hfollows.current vals ((hasTuple_setIndex hne).2 htuple)
      simp only [htupleOf, reduceCtorEq, exists_false, or_false] at hheld
      refine ⟨fun hgone => absurd htuple.holdsHash hgone, fun h0 => absurd h0 hnul, ?_⟩
      intro _ vals' htuple' hu
      obtain rfl := htuple.unique hnamed htuple'
      exact hcontent.1 hheld hu
    · intro hok
      refine ⟨fun hgone => absurd htuple.holdsHash ((holdsHash_setIndex hne).not.1 hgone), ?_⟩
      intro vals' htuple'
      obtain rfl := htuple.unique hnamed ((hasTuple_setIndex hne).1 htuple')
      rw [htupleOf]
      exact Or.inl (hcontent.2 (hok.stored hnul vals htuple))

/-- Where there is no tuple the index is as it was, and the client has got an error. -/
theorem follows_error_iff {strtod : List UInt8 → Strtod}
    (hnone : ∀ vals, ¬HasTuple strtod db r.spec (cString key).bytes vals) (msg : List UInt8) :
    Follows strtod db r (.error msg) key ↔ Reindexes strtod db r key := by
  constructor
  · intro hfollows
    refine ⟨hfollows.gone, fun _ _ _ => hnone, fun hnul vals htuple => ?_⟩
    rw [← cString_bytes_of_notMem hnul] at htuple
    exact absurd htuple (hnone vals)
  · intro hok
    exact ⟨hok.gone, fun _ _ => Or.inr ⟨_, rfl⟩⟩

/-- After a hash command has succeeded. -/
theorem hashWrite_follows_iff (hdoc : Documented host.call) (hcmd : cmd ∈ hashWriteCommands)
    (hnamed : ∀ p ∈ r.spec.properties, p.name ≠ none) (hdb : db index = some (.index r))
    (h : Inv r.spec r.idx) (hreply : (host.call db (cString cmd) (key :: args)).2.Succeeded)
    (htyped : Typed r.spec (reindexChanges host.strtod host.draw
      (host.call db (cString cmd) (key :: args)).1 r.spec key))
    (hshared : r.spec.isUnique = true ∨ KeysNotShared r.idx (reindexChanges host.strtod host.draw
      (host.call db (cString cmd) (key :: args)).1 r.spec key))
    (hwhere : rmUtilArgExists (ascii "WHERE") (into :: index :: cmd :: key :: args) 0 = 0)
    {fuel : Nat} (hfuel : 2 ≤ fuel) :
    IntoFollows host fuel db into index cmd (key :: args) ↔
      Reindexes host.strtod (host.call db (cString cmd) (key :: args)).1 r key := by
  obtain ⟨fuel, rfl⟩ := Nat.exists_eq_add_of_le' hfuel
  obtain ⟨hdel, hhandler, hids⟩ := hashWrite_transaction host.strtod key args hcmd
  -- The write has left the index alone, so it is not at the key of the hash.
  have hne : key ≠ index := by
    rintro rfl
    rcases hdoc.wrongtype hcmd hreply with hnone | ⟨fields, hfields⟩
    · simp [hdb] at hnone
    · simp [hdb] at hfields
  have hdb' : (host.call db (cString cmd) (key :: args)).1 index = some (.index r) :=
    (hdoc.frame hcmd (Ne.symm hne)).trans hdb
  have hnamed' : namedKeys cmd (key :: args) = [key] := by
    simp [namedKeys, hdel]
  have hloop : indexIntoCommand host (fuel + 2) db (into :: index :: cmd :: key :: args) =
      reindexHashHandler host.strtod index (host.call db (cString cmd) (key :: args)).1
        (cString key).bytes (host.draw 0) >>= fun rc =>
          if rc.2 ≠ redismoduleOk then
            .ok (rc.1, .error (ascii "Command performed but updating index failed"))
          else
            .ok (rc.1, .longLong 1) := by
    rw [indexIntoCommand_loop hdb hwhere hhandler hids, keysLoop_cons hreply.1]
    rfl
  generalize (host.call db (cString cmd) (key :: args)).1 = written at *
  rcases reindexHashHandler_spec hnamed hdb' host.draw with
    ⟨vals, htuple, hchanges, hrun⟩ | ⟨hnone, hrun⟩
  · rw [hchanges] at htyped hshared
    have hlen : vals.length = r.spec.types.length := by
      obtain ⟨_, _, hvals⟩ := htuple
      rw [SISpec.types, List.length_map, hvals.length_eq]
    have hvals : KeyOk r.spec.types vals := htyped _ (List.mem_singleton_self _) rfl hlen
    have hk : r.spec.isUnique = true ∨ KeyNotShared r.idx (cString key) :=
      hshared.imp_right fun hk => hk.1 (Or.inr ⟨rfl, by rw [h.1, hlen]⟩)
    obtain ⟨idx', code, happly, hcontent⟩ := add_content_iff h hvals hk (host.draw 0)
    have hinto : indexIntoCommand host (fuel + 2) db (into :: index :: cmd :: key :: args) =
        .ok (written.setIndex index { r with idx := idx' }, .longLong 1) := by
      rw [hloop, hrun, happly]
      rfl
    rw [intoFollows_iff hnamed' hinto setIndex_self]
    exact follows_add_iff hnamed hne htuple hcontent 1
  · -- The handler has failed.
    have hinto : indexIntoCommand host (fuel + 2) db (into :: index :: cmd :: key :: args) =
        .ok (written, .error (ascii "Command performed but updating index failed")) := by
      rw [hloop, hrun]
      rfl
    rw [intoFollows_iff hnamed' hinto hdb']
    exact follows_error_iff hnone _

end HashWrite

/-! ## Any command -/

section Into

variable {host : Host} {db : Keyspace} {into index key : RedisModuleString}
  {args : List RedisModuleString} {r : RedisIndex}

/-- After DEL. -/
theorem del_follows_iff (hdoc : Documented host.call) (hdb : db index = some (.index r))
    (h : Inv r.spec r.idx)
    (hshared : r.spec.isUnique = true ∨
      KeysNotShared r.idx (deleteChanges host.draw 0 (key :: args)))
    (hwhere : rmUtilArgExists (ascii "WHERE") (into :: index :: ascii "DEL" :: key :: args) 0 = 0)
    {fuel : Nat} (hfuel : args.length + 2 ≤ fuel) :
    IntoFollows host fuel db into index (ascii "DEL") (key :: args) ↔ index ∉ key :: args := by
  obtain ⟨hhandler, hids⟩ := del_transaction host.strtod key args
  have hloop : indexIntoCommand host fuel db (into :: index :: ascii "DEL" :: key :: args) = _ :=
    indexIntoCommand_loop hdb hwhere hhandler hids
  have hkeys : namedKeys (ascii "DEL") (key :: args) = key :: args := if_pos rfl
  constructor
  · rintro ⟨db', reply, r', hrun, _⟩ hindex
    obtain ⟨fuel, rfl⟩ := Nat.exists_eq_add_of_le' (Nat.le_of_add_left_le hfuel : 1 ≤ fuel)
    rw [hloop, deleteLoop_released hdoc hindex] at hrun
    cases hrun
  · intro hindex
    obtain ⟨db', reply, idx', hrun, hdb', hgone, hcontent⟩ :=
      deleteLoop_spec hdoc (List.cons_ne_nil key args) hindex hdb h (Or.inl (by simp)) hshared
        hfuel
    refine ⟨db', reply, _, hloop.trans hrun, hdb', fun key' hkey' => ?_⟩
    rw [hkeys] at hkey'
    have hnot : ¬HoldsHash db' key' := by
      rintro ⟨fields, hfields⟩
      simp [hgone key' hkey'] at hfields
    refine ⟨fun _ => ?_, fun vals htuple => absurd htuple.holdsHash hnot⟩
    by_cases hnul : 0 ∈ key'
    · exact if_pos hnul
    · rw [CompoundIndex.tupleOf, if_neg hnul, hcontent, if_pos (List.mem_map_of_mem hkey')]

/-- The changes of a command are typed. -/
theorem typed_intoChanges {spec : SISpec} (hexact : ∀ t ∈ spec.types, t ∈ exactTypes)
    (hnamed : ∀ p ∈ spec.properties, p.name ≠ none) (cmd : RedisModuleString) :
    Typed spec (intoChanges host db spec cmd args) := by
  rw [intoChanges]
  split_ifs with hdel
  · have hdeletes : ∀ (keys : List RedisModuleString) (n : Nat),
        ∀ ch ∈ deleteChanges host.draw n keys, ch.1.type = .chDel := by
      intro keys
      induction keys with
      | nil => simp [deleteChanges]
      | cons key keys ih => simpa [deleteChanges] using fun n => ih (n + 1)
    intro ch hch hadd
    simp [hdeletes args 0 ch hch] at hadd
  · rw [reindexChanges]
    split
    · rename_i fields _
      obtain ⟨o, ho, hspec⟩ := hashValues_spec host.strtod fields hnamed
      rw [ho]
      cases o with
      | none => simp [Typed]
      | some vals =>
          intro ch hch _ _
          obtain rfl := List.mem_singleton.1 hch
          exact FieldsTuple.keyOk hexact ((hspec vals).1 rfl)
    · simp [Typed]

/-- Where no key of the index was shared when it was dropped, and none is when the command drops
one, the index follows the keys of a command that Redis has executed if and only if: DEL does not
name the key of the index, and what a hash command leaves at its key can be brought into the
index. -/
theorem into_follows_iff {spec : SISpec} {idx₀ : CompoundIndex}
    (hnew : siNewCompoundIndex spec = .ok idx₀) (css : List (List (SIChange × Level)))
    (htyped : ∀ cs ∈ css, Typed spec cs)
    (hkeys : spec.isUnique = true ∨ Every applyStep KeysNotShared idx₀ css)
    (hrun : run applyStep idx₀ css = .ok r.idx) (hspec : r.spec = spec)
    (hnamed : ∀ p ∈ spec.properties, p.name ≠ none) (hdoc : Documented host.call)
    (hdb : db index = some (.index r)) {cmd : RedisModuleString}
    (hcmd : cmd = ascii "DEL" ∨ cmd ∈ hashWriteCommands)
    (hwhere : rmUtilArgExists (ascii "WHERE") (into :: index :: cmd :: key :: args) 0 = 0)
    (hreply : (host.call db (cString cmd) (key :: args)).2.Succeeded)
    (hchanges : Typed spec (intoChanges host db spec cmd (key :: args)))
    (hshared : spec.isUnique = true ∨
      KeysNotShared r.idx (intoChanges host db spec cmd (key :: args)))
    {fuel : Nat} (hfuel : args.length + 2 ≤ fuel) :
    IntoFollows host fuel db into index cmd (key :: args) ↔
      Followable host db r index cmd (key :: args) := by
  obtain ⟨idx, hrun', hinv, _, _⟩ := (stands_new hnew).run htyped hkeys
  obtain rfl : r.idx = idx := Except.ok.inj (hrun.symm.trans hrun')
  subst hspec
  rcases hcmd with rfl | hcmd
  · simp only [intoChanges, if_true] at hshared
    rw [del_follows_iff hdoc hdb hinv hshared hwhere hfuel, Followable, if_pos rfl]
  · have hdel : cmd ≠ ascii "DEL" := (hashWrite_transaction host.strtod key args hcmd).1
    simp only [intoChanges, if_neg hdel, List.headD_cons] at hchanges hshared
    rw [hashWrite_follows_iff hdoc hcmd hnamed hdb hinv hreply hchanges hshared hwhere
      (Nat.le_of_add_left_le hfuel)]
    simp [Followable, hdel]

end Into

/-! ## A small Redis -/

/-- HSET of one field, and HDEL. -/
def smallHashCommand (cmd : List UInt8) (args : List RedisModuleString) (fields : RedisHash) :
    Option RedisHash :=
  match args with
  | [field, val] =>
      if cmd = ascii "HSET" then some (fields.insert field val)
      else if cmd = ascii "HDEL" then some ((fields.erase field).erase val)
      else none
  | [field] => if cmd = ascii "HDEL" then some (fields.erase field) else none
  | _ => none

/-- The hash at a key, which is empty where there is nothing. -/
def hashAt (db : Keyspace) (key : RedisModuleString) : Option RedisHash :=
  match db key with
  | none => some ∅
  | some (.hash fields) => some fields
  | some _ => none

/-- A Redis of these two commands and DEL; it refuses all others. -/
def smallRedis : RedisCall := fun db cmd args =>
  match args with
  | [] => (db, .unknown)
  | key :: rest =>
      if cmd.bytes = ascii "DEL" then
        (fun key' => if key' ∈ key :: rest then none else db key', .integer)
      else
        match (hashAt db key).bind (smallHashCommand cmd.bytes rest) with
        | none => (db, .error)
        | some fields =>
            -- A hash without fields does not stay.
            (Function.update db key (if fields = ∅ then none else some (.hash fields)), .integer)

theorem cString_hashWrite {cmd : RedisModuleString} (h : cmd ∈ hashWriteCommands) :
    (cString cmd).bytes ≠ ascii "DEL" := by
  simp only [hashWriteCommands, List.mem_cons, List.not_mem_nil, or_false] at h
  rcases h with rfl | rfl | rfl | rfl | rfl | rfl <;> decide

theorem documented_smallRedis : Documented smallRedis where
  frame := by
    intro db cmd key key' args hcmd hne
    simp only [smallRedis, if_neg (cString_hashWrite hcmd)]
    cases (hashAt db key).bind (smallHashCommand (cString cmd).bytes args) with
    | none => rfl
    | some fields => exact Function.update_of_ne hne _ db
  wrongtype := by
    intro db cmd key args hcmd hreply
    cases hobj : db key with
    | none => exact Or.inl rfl
    | some obj =>
        cases obj with
        | hash fields => exact Or.inr ⟨fields, hobj⟩
        | index r =>
            simp [smallRedis, cString_hashWrite hcmd, hashAt, hobj, ReplyType.Succeeded] at hreply
        | other =>
            simp [smallRedis, cString_hashWrite hcmd, hashAt, hobj, ReplyType.Succeeded] at hreply
  del := by
    intro db keys hkeys
    obtain ⟨key, rest, rfl⟩ := List.exists_cons_of_ne_nil hkeys
    have hdel : (cString (ascii "DEL")).bytes = ascii "DEL" := by decide
    simp [smallRedis, hdel]

def smallHost : Host where
  call := smallRedis
  strtod := noStrtod
  now := 0
  tok := .intval 0
  draw := fun _ => level1
  memory := ⟨0, 0, 0, 0, 0, 0⟩

/-- An index of hashes by their field `f`. -/
def fieldF (flags : UInt32) : SISpec where
  properties := [{ type := .int32, flags := 0, name := some (cString (ascii "f")) }]
  flags := flags

/-- The index is at `i`, and a hash that has `f` is at `j`. -/
def keyspaceIJ (r : RedisIndex) (val : RedisModuleString) : Keyspace := fun key =>
  if key = ascii "i" then some (.index r)
  else if key = ascii "j" then some (.hash (Finmap.singleton (ascii "f") val))
  else none

def indexF (flags : UInt32) (idx : CompoundIndex) : RedisIndex where
  kind := .hashIndex
  flags := 0
  spec := fieldF flags
  idx := idx

/-- The hash and its entry get another value. -/
theorem into_follows_iff_hset :
    ∃ idx₀ idx, siNewCompoundIndex (fieldF siIndexNamed) = .ok idx₀ ∧
      run applyStep idx₀ [[add (cString (ascii "j")) (.int32 1)]] = .ok idx ∧
      (IntoFollows smallHost 4 (keyspaceIJ (indexF siIndexNamed idx) (ascii "1"))
          (ascii "IDX.INTO") (ascii "i") (ascii "HSET") [ascii "j", ascii "f", ascii "2"] ↔
        Followable smallHost (keyspaceIJ (indexF siIndexNamed idx) (ascii "1"))
          (indexF siIndexNamed idx) (ascii "i") (ascii "HSET")
          [ascii "j", ascii "f", ascii "2"]) := by
  refine ⟨_, _, rfl, rfl, into_follows_iff rfl [[add (cString (ascii "j")) (.int32 1)]]
    (by decide) (Or.inr (by decide +kernel)) rfl rfl (by decide) documented_smallRedis rfl
    (Or.inr (by decide)) (by decide) (by decide) (typed_intoChanges (by decide) (by decide) _)
    (Or.inr ?_) (by decide)⟩
  decide +kernel

/-- In a UNIQUE index the value of another hash: the handler does not say that the change was not
applied, the client gets the number 1, and the hash has no entry. -/
theorem into_hset_duplicate_unindexed :
    ∃ idx₀ idx, siNewCompoundIndex (fieldF (siIndexNamed ||| siIndexUnique)) = .ok idx₀ ∧
      run applyStep idx₀ [[add (cString (ascii "j")) (.int32 1)]] = .ok idx ∧
      Documented smallHost.call ∧
      (smallHost.call (keyspaceIJ (indexF (siIndexNamed ||| siIndexUnique) idx) (ascii "1"))
        (cString (ascii "HSET")) [ascii "k", ascii "f", ascii "1"]).2.Succeeded ∧
      ¬IntoFollows smallHost 4
        (keyspaceIJ (indexF (siIndexNamed ||| siIndexUnique) idx) (ascii "1"))
        (ascii "IDX.INTO") (ascii "i") (ascii "HSET") [ascii "k", ascii "f", ascii "1"] := by
  refine ⟨_, _, rfl, rfl, documented_smallRedis, by decide, ?_⟩
  rintro ⟨db', reply, r', hrun, hr', hfollows⟩
  obtain ⟨rfl, rfl⟩ := Prod.mk.inj (Except.ok.inj hrun)
  obtain rfl := RedisObject.index.inj (Option.some.inj hr')
  have hcurrent := (hfollows (ascii "k") (by decide)).current [.int32 1]
    ⟨Finmap.singleton (ascii "f") (ascii "1"), rfl,
      .cons ⟨_, rfl, Or.inr ⟨ascii "1", rfl, rfl⟩⟩ .nil⟩
  rcases hcurrent with hheld | ⟨msg, hmsg⟩
  · cases hheld
  · cases hmsg

end Secondary
