import Secondary.ServiceSpec

/-!
# Sessions — whole sessions of commands

A session is any sequence of commands, with indexes saved and loaded between them.  Its replies are
those of the service, so they follow from the commands alone: levels, memory and restarts do not
show in them.
-/

namespace Secondary

open Lib

section Sessions

variable {strtod : List UInt8 → Strtod} {db : Keyspace} {s : Service}

/-! ## One event -/

/-- What asks nothing is not seen by the service. -/
theorem serve_silent (h : Serves db s) {e : Event} (hask : e.asks = none) :
    ∃ db', Settles (fun fuel => serve strtod fuel db e) (db', []) ∧ Serves db' s := by
  cases e with
  | command c level memory => cases hask
  | reload key draw =>
      obtain ⟨db', hrun, hserves⟩ := reloadKey_spec h draw key
      refine ⟨db', ⟨0, fun fuel _ => ?_⟩, hserves⟩
      show (reloadKey draw db key >>= fun db => .ok (db, [])) = _
      rw [hrun]
      rfl

/-! ## A session -/

/-- The keys of a Redis that has no index yet. -/
def Service.ofKeys (db : Keyspace) : Service :=
  fun key => (db key).map fun _ => .plain

theorem serves_ofKeys (h : ∀ key, db.indexAt key = none) : Serves db (.ofKeys db) := by
  intro key
  have hnone := h key
  rw [Keyspace.indexAt] at hnone
  rw [Service.ofKeys]
  cases hvalue : db key with
  | none => exact .none
  | some v =>
      cases v with
      | hash fields => exact .plain (.hash fields)
      | other => exact .plain .other
      | index r =>
          rw [hvalue] at hnone
          cases hnone

/-! ## Commands that allow no fault -/

/-- Every schema of the commands is UNIQUE, has at most 255 columns and no FLOAT or DOUBLE, and the
queries on a key can be planned for every schema that it may have. -/
structure Faultless (strtod : List UInt8 → Strtod) (cs : List Command) : Prop where
  schemas : ∀ {argv kind spec}, .create argv ∈ cs → schemaOf argv = some (kind, spec) →
    spec.numProps ≤ 255 ∧ spec.isUnique = true ∧ ∀ p ∈ spec.properties, p.type ∈ exactTypes
  queries : ∀ {argv kind spec now tok argv'}, .create argv ∈ cs → .select now tok argv' ∈ cs →
    keyOf argv = keyOf argv' → schemaOf argv = some (kind, spec) →
      CanAnswer strtod now tok ((argv'[3]?).getD []) spec

/-- One of the commands creates an index with this schema at the key. -/
def Creates (cs : List Command) (key : RedisModuleString) (spec : SISpec) : Prop :=
  ∃ argv kind, .create argv ∈ cs ∧ keyOf argv = key ∧ schemaOf argv = some (kind, spec)

/-- The schemas of all indexes are those of the commands. -/
def SchemasFrom (cs : List Command) (s : Service) : Prop :=
  ∀ key a, s.indexAt key = some a → Creates cs key a.spec

section Schemas

variable {cs : List Command} {key : RedisModuleString} {a : ServedIndex}

theorem schemasFrom_ofKeys (db : Keyspace) : SchemasFrom cs (.ofKeys db) := by
  intro key a hindex
  rw [Service.indexAt, Service.ofKeys] at hindex
  cases hvalue : db key <;> simp [hvalue] at hindex

theorem Service.indexAt_update {w : Option Served} {key' : RedisModuleString}
    (h : Service.indexAt (Function.update s key w) key' = some a) :
    (key' = key ∧ w = some (.index a)) ∨ s.indexAt key' = some a := by
  rw [Service.indexAt] at h
  by_cases hkey : key' = key
  · subst hkey
    rw [Function.update_self] at h
    cases w with
    | none => cases h
    | some w =>
        cases w with
        | plain => cases h
        | index b =>
            obtain rfl := Option.some.inj h
            exact Or.inl ⟨rfl, rfl⟩
  · rw [Function.update_of_ne hkey] at h
    exact Or.inr h

theorem SchemasFrom.set (h : SchemasFrom cs s) (ha : Creates cs key a.spec) :
    SchemasFrom cs (s.set key a) := by
  intro key' a' hindex
  rcases Service.indexAt_update hindex with ⟨rfl, heq⟩ | hold
  · obtain rfl := Served.index.inj (Option.some.inj heq)
    exact ha
  · exact h key' a' hold

theorem spec_foldl_erase (ids : List RedisModuleString) :
    ∀ a : ServedIndex, (ids.foldl (fun a id => a.erase (cString id)) a).spec = a.spec := by
  induction ids with
  | nil =>
      intro a
      rfl
  | cons id ids ih =>
      intro a
      exact ih (a.erase (cString id))

/-- No command gives an index a schema that was not named for its key. -/
theorem SchemasFrom.answer (h : SchemasFrom cs s) {c : Command} (hc : c ∈ cs) :
    SchemasFrom cs (s.answer strtod c).1 := by
  cases c with
  | create argv =>
      simp only [Service.answer, Service.create]
      split
      · exact h
      · cases hschema : schemaOf argv with
        | none => exact h
        | some p =>
            obtain ⟨kind, spec⟩ := p
            simp only
            split_ifs with hexists hok
            · exact h
            · exact h.set ⟨argv, kind, hc, rfl, hschema⟩
            · exact h
  | insert argv =>
      simp only [Service.answer, Service.insert]
      split
      · exact h
      · cases hindex : s.indexAt (keyOf argv) with
        | none => exact h
        | some a =>
            simp only
            cases hparse : parseArgs strtod a.spec.properties (argv.drop 3) with
            | none => exact h
            | some vals =>
                simp only
                split_ifs with hok
                · exact h.set (h _ a hindex)
                · exact h
  | del argv =>
      simp only [Service.answer, Service.del]
      split
      · exact h
      · cases hindex : s.indexAt (keyOf argv) with
        | none => exact h
        | some a =>
            refine h.set ?_
            rw [spec_foldl_erase]
            exact h _ a hindex
  | card argv =>
      simp only [Service.answer, Service.card]
      split
      · exact h
      · generalize s (keyOf argv) = w
        rcases w with _ | _ | _ <;> exact h
  | select now tok argv =>
      -- A query changes nothing.
      have hsame : (s.select strtod now tok argv).1 = s := by
        simp only [Service.select]
        split
        · rfl
        · split
          · rfl
          · split
            · rfl
            · split <;> rfl
            · rfl
      simp only [Service.answer, hsame]
      exact h
  | overwrite key value =>
      intro key' a' hindex
      rcases Service.indexAt_update hindex with ⟨_, heq⟩ | hold
      · cases value <;> cases heq
      · exact h key' a' hold

theorem notNaN_of_parseArgs {ps : List SIIndexProperty} :
    ∀ {args : List RedisModuleString} {vals : List SIValue},
      (∀ p ∈ ps, p.type ∈ exactTypes) → parseArgs strtod ps args = some vals →
      ∀ v ∈ vals, v.NotNaN := by
  induction ps with
  | nil =>
      intro args vals _ hparse
      cases args with
      | nil =>
          obtain rfl : [] = vals := by simpa [parseArgs] using hparse
          simp
      | cons a args => cases hparse
  | cons p ps ih =>
      intro args vals htypes hparse
      cases args with
      | nil =>
          obtain rfl : [] = vals := by simpa [parseArgs] using hparse
          simp
      | cons a args =>
          simp only [parseArgs, Option.bind_eq_bind, Option.bind_eq_some_iff,
            Option.some.injEq] at hparse
          obtain ⟨v, hv, vs, hvs, rfl⟩ := hparse
          exact List.forall_mem_cons.2 ⟨(parse_type (htypes p (by simp)) hv).2,
            ih (fun p hp => htypes p (List.mem_cons_of_mem _ hp)) hvs⟩

theorem Faultless.admissible (hcs : Faultless strtod cs) (h : SchemasFrom cs s) {c : Command}
    (hc : c ∈ cs) : Admissible strtod s c := by
  cases c with
  | create argv =>
      intro kind spec hschema
      exact (hcs.schemas hc hschema).1
  | insert argv =>
      intro a vals hindex hparse
      obtain ⟨argv', kind, hmem, _, hschema⟩ := h _ a hindex
      obtain ⟨_, hunique, hexact⟩ := hcs.schemas hmem hschema
      refine ⟨notNaN_of_parseArgs hexact hparse, fun hnot => ?_⟩
      rw [hunique] at hnot
      cases hnot
  | select now tok argv =>
      intro a hindex
      obtain ⟨argv', kind, hmem, hkey, hschema⟩ := h _ a hindex
      exact hcs.queries hmem hc hkey hschema
  | _ => trivial

theorem Faultless.admits (hcs : Faultless strtod cs) (hs : SchemasFrom cs s) :
    Admits (Service.answer strtod) (Admissible strtod) s cs :=
  admits_of_invariant (I := SchemasFrom cs) (Q := fun c => c ∈ cs)
    (fun _ _ hc h => hcs.admissible h hc) (fun _ _ hc h => h.answer hc) cs s hs fun _ hc => hc

end Schemas

end Sessions

/-! ## A session on one key -/

def createK : List RedisModuleString :=
  [ascii "IDX.CREATE", ascii "k", ascii "UNIQUE", ascii "SCHEMA", ascii "INT64"]

/-- An index, two ids, their number, and the ids of one value. -/
def commandsK : List Command :=
  [.create createK, .insert [ascii "IDX.INSERT", ascii "k", ascii "a", ascii "1"],
    .insert [ascii "IDX.INSERT", ascii "k", ascii "b", ascii "2"],
    .card [ascii "IDX.CARD", ascii "k"],
    .select 0 (.intval 0) [ascii "IDX.SELECT", ascii "k", ascii "WHERE", ascii "$1 = 1"]]

/-- Redis is started again before the ids are selected. -/
def eventsK : List Event :=
  (commandsK.take 4).map (fun c => .command c level1 ⟨0, 0, 0, 0, 0, 0⟩) ++
    .reload (ascii "k") (fun _ => level1) ::
      (commandsK.drop 4).map fun c => .command c level1 ⟨1, 1, 1, 1, 1, 1⟩

end Secondary
