import Secondary.CursorMemory
import Secondary.HashIndexSpec
import Secondary.Selected

/-!
# ProxySpec — when IDX.FROM and IDX.INTO take their arguments apart safely

Where the word WHERE stands decides how the arguments are read, and it may stand anywhere: it may be
the name of the index, or a field or a value of the command that is passed on.  For each command
this module says exactly for which arguments every element of `argv` that is read is one of them,
the query is assigned before it is used, one reply is sent, and IDX.INTO without WHERE executes the
command that it was given.  A run that ends in a fault of the code that is called sends no reply.
-/

namespace Secondary

open Lib Lib.Traced

/-! ## Replies -/

/-- The run returns, and has sent one reply. -/
structure RepliesOnce {α : Type} (t : ProxyRun α) : Prop where
  returns : ∃ a, t.out = .ok a
  once : t.log.countP ProxyEvent.isReply = 1

/-- The run replies when it returns: once, and not at all when it faults. -/
abbrev RepliesAtEnd {α : Type} (t : ProxyRun α) : Prop :=
  Emits ProxyEvent.isReply t 1

/-- The run leaves the reply to what follows. -/
abbrev NoReply {α : Type} (t : ProxyRun α) : Prop :=
  Emits ProxyEvent.isReply t 0

section Replies

variable {host : Host} {index : RedisModuleString} {argv : List RedisModuleString}

theorem repliesAtEnd_answer (db : Keyspace) (r : ProxyReply) : RepliesAtEnd (answer db r) :=
  emits_emit_pure rfl _

theorem noReply_inner {α : Type} (x : Exec α) : NoReply (inner x) :=
  emits_lift _

theorem noReply_argAt (argv : List RedisModuleString) (i : Nat) : NoReply (argAt argv i) :=
  emits_lift _

theorem noReply_proxyCall (call : RedisCall) (db : Keyspace) (args : List RedisModuleString) :
    NoReply (proxyCall call db args) := by
  cases args with
  | nil => exact emits_fault _ _
  | cons cmd args => exact (emits_emit rfl).bind fun _ _ => emits_pure _

theorem noReply_createIndexedTransaction (host : Host) (idx : CompoundIndex)
    (q : Option (Option SIQuery)) (argv : List RedisModuleString) :
    NoReply (createIndexedTransaction host idx q argv) := by
  refine (emits_emit rfl).bind fun _ _ => (noReply_argAt argv 0).bind fun name _ => ?_
  cases hashIndexGetHandler host.strtod name with
  | none => exact emits_pure _
  | some cmd =>
      cases q with
      | none =>
          cases hids : hashIndexGetIdsForCommand host.strtod argv <;>
            simpa only [hids] using emits_pure _
      | some q =>
          refine (emits_lift _).bind fun q _ => (noReply_inner _).bind fun found _ => ?_
          obtain ⟨_, c⟩ := found
          cases c <;> exact emits_pure _

theorem repliesAtEnd_intoLoop {parametric : Bool} {cmd : IndexedCommandProxy} (fuel : Nat)
    (db : Keyspace) (ids : IdSource) (num : Nat) :
    RepliesAtEnd (intoLoop host index parametric argv cmd fuel db ids num) := by
  induction fuel generalizing db ids num with
  | zero => exact emits_fault _ _
  | succ fuel ih =>
      refine (noReply_inner _).bind fun next _ => ?_
      cases next.2 with
      | none => exact repliesAtEnd_answer db _
      | some id =>
          refine (noReply_proxyCall _ _ _).bind fun rep _ => ?_
          by_cases herror : rep.2 ≠ .error
          · simp only [if_pos herror]
            refine (noReply_inner _).bind fun rc _ => ?_
            by_cases hok : rc.2 ≠ redismoduleOk
            · simpa only [if_pos hok] using repliesAtEnd_answer rc.1 _
            · simpa only [if_neg hok] using ih _ _ _
          · simpa only [if_neg herror] using ih _ _ _

theorem repliesAtEnd_intoCommand (fuel : Nat) (db : Keyspace) (r : RedisIndex) (wherePos : Nat)
    (q : Option SIQuery) : RepliesAtEnd (intoCommand host fuel db index r argv wherePos q) := by
  refine (noReply_createIndexedTransaction _ _ _ _).bind fun tx _ => ?_
  cases tx with
  | error msg => exact repliesAtEnd_answer db _
  | ok tx => exact repliesAtEnd_intoLoop fuel db tx.ids 0

theorem noReply_readLoop (fuel : Nat) (db : Keyspace) (c : CursorStruct) (num : Nat) :
    NoReply (readLoop host index argv fuel db c num) := by
  induction fuel generalizing db c num with
  | zero => exact emits_fault _ _
  | succ fuel ih =>
      refine (noReply_inner _).bind fun next _ => ?_
      cases next.2 with
      | none => exact emits_pure _
      | some id => exact (noReply_proxyCall _ _ _).bind fun rep _ => ih _ _ _

theorem repliesAtEnd_executeReadCommand (fuel : Nat) (db : Keyspace) (idx : CompoundIndex)
    (q : SIQuery) :
    RepliesAtEnd (hashIndexExecuteReadCommand host fuel db index idx q argv) := by
  refine (emits_emit rfl).bind fun _ _ => (noReply_inner _).bind fun r _ =>
    (noReply_inner _).bind fun error _ => ?_
  by_cases herror : error ≠ siCursorOk
  · simpa only [if_pos herror] using repliesAtEnd_answer db _
  · simp only [if_neg herror]
    exact (noReply_readLoop _ _ _ _).bind fun res _ => (noReply_inner _).bind fun _ _ =>
      repliesAtEnd_answer _ _

theorem repliesAtEnd_fromWhere (fuel : Nat) (db : Keyspace) (r : RedisIndex) (wherePos : Nat) :
    RepliesAtEnd (fromWhere host fuel db index r argv wherePos) := by
  refine (noReply_argAt _ _).bind fun qstr _ => (noReply_inner _).bind fun parsed _ => ?_
  obtain ⟨accepted, q, msg⟩ := parsed
  cases accepted with
  | true => exact repliesAtEnd_executeReadCommand fuel db r.idx q
  | false => cases msg <;> exact repliesAtEnd_answer db _

/-- An error that is sent before the reply makes two replies. -/
theorem not_repliesOnce_of_answered {α : Type} {r : ProxyReply} {t : ProxyRun α}
    (h : RepliesAtEnd t) : ¬RepliesOnce (emit (.reply r) >>= fun _ => t) := by
  rintro ⟨⟨a, ha⟩, honce⟩
  refine not_emits_of_answered (e := .reply r) rfl h ?_
  rw [Emits, honce, ha]

end Replies

/-! ## Arguments and the query -/

/-- The run reads no argument that is not there, and no query that was not assigned. -/
structure Guarded {α : Type} (t : ProxyRun α) : Prop where
  argv : t.Escapes .argv
  query : t.Escapes .query

section Guard

variable {α β : Type} {host : Host} {index : RedisModuleString} {argv : List RedisModuleString}

theorem Guarded.bind {x : ProxyRun α} {f : α → ProxyRun β} (hx : Guarded x)
    (hf : ∀ a, x.out = .ok a → Guarded (f a)) : Guarded (x >>= f) where
  argv := hx.argv.bind fun a ha => (hf a ha).argv
  query := hx.query.bind fun a ha => (hf a ha).query

theorem guarded_inner (x : Exec α) : Guarded (inner x) := by
  constructor <;> cases x <;> simp [inner, Escapes, Avoids, Except.mapError]

theorem guarded_pure (a : α) : Guarded (pure a) :=
  ⟨escapes_pure a _, escapes_pure a _⟩

theorem guarded_emit (e : ProxyEvent) : Guarded (emit e) :=
  ⟨escapes_emit e _, escapes_emit e _⟩

theorem guarded_answer (db : Keyspace) (r : ProxyReply) : Guarded (answer db r) :=
  (guarded_emit _).bind fun _ _ => guarded_pure _

theorem guarded_argAt {i : Nat} (h : i < argv.length) : Guarded (argAt argv i) := by
  rw [argAt, List.getElem?_eq_getElem h]
  exact guarded_pure _

theorem guarded_diverges : Guarded (lift (.error (.inner .diverges)) : ProxyRun α) := by
  constructor <;> simp [Escapes, Avoids]

theorem guarded_proxyCall {call : RedisCall} {db : Keyspace} {args : List RedisModuleString}
    (h : args ≠ []) : Guarded (proxyCall call db args) := by
  cases args with
  | nil => exact absurd rfl h
  | cons cmd args => exact (guarded_emit _).bind fun _ _ => guarded_pure _

theorem substituteId_ne_nil {id : SIId} (h : argv ≠ []) : substituteId id argv ≠ [] := by
  cases argv with
  | nil => exact absurd rfl h
  | cons arg args =>
      rw [substituteId]
      split <;> simp

theorem guarded_createIndexedTransaction {idx : CompoundIndex} {q : Option (Option SIQuery)}
    (hq : q ≠ some none) (h : argv ≠ []) : Guarded (createIndexedTransaction host idx q argv) := by
  refine (guarded_emit _).bind fun _ _ =>
    (guarded_argAt (List.length_pos_iff.2 h)).bind fun name _ => ?_
  cases hashIndexGetHandler host.strtod name with
  | none => exact guarded_pure _
  | some cmd =>
      rcases q with _ | _ | q
      · cases hids : hashIndexGetIdsForCommand host.strtod argv <;>
          simpa only [hids] using guarded_pure _
      · exact absurd rfl hq
      · refine (guarded_pure q).bind fun q _ => (guarded_inner _).bind fun found _ => ?_
        obtain ⟨_, c⟩ := found
        cases c <;> exact guarded_pure _

theorem guarded_intoLoop {parametric : Bool} {cmd : IndexedCommandProxy} (h : argv ≠ [])
    (fuel : Nat) (db : Keyspace) (ids : IdSource) (num : Nat) :
    Guarded (intoLoop host index parametric argv cmd fuel db ids num) := by
  induction fuel generalizing db ids num with
  | zero => exact guarded_diverges
  | succ fuel ih =>
      refine (guarded_inner _).bind fun next _ => ?_
      cases next.2 with
      | none => exact guarded_answer db _
      | some id =>
          have hargs : (if parametric = true then substituteId id argv else argv) ≠ [] := by
            cases parametric
            · exact h
            · exact substituteId_ne_nil h
          refine (guarded_proxyCall hargs).bind fun rep _ => ?_
          by_cases herror : rep.2 ≠ .error
          · simp only [if_pos herror]
            refine (guarded_inner _).bind fun rc _ => ?_
            by_cases hok : rc.2 ≠ redismoduleOk
            · simpa only [if_pos hok] using guarded_answer rc.1 _
            · simpa only [if_neg hok] using ih _ _ _
          · simpa only [if_neg herror] using ih _ _ _

theorem guarded_intoCommand {fuel : Nat} {db : Keyspace} {r : RedisIndex} {wherePos : Nat}
    {q : Option SIQuery} (hq : wherePos ≠ 0 → q ≠ none)
    (h : argv.drop (if wherePos ≠ 0 then wherePos + 2 else 2) ≠ []) :
    Guarded (intoCommand host fuel db index r argv wherePos q) := by
  refine (guarded_createIndexedTransaction ?_ h).bind fun tx _ => ?_
  · by_cases hw : wherePos ≠ 0
    · simpa [if_pos hw] using hq hw
    · simp [if_neg hw]
  · cases tx with
    | error msg => exact guarded_answer db _
    | ok tx => exact guarded_intoLoop h fuel db tx.ids 0

theorem guarded_readLoop (h : argv ≠ []) (fuel : Nat) (db : Keyspace) (c : CursorStruct)
    (num : Nat) : Guarded (readLoop host index argv fuel db c num) := by
  induction fuel generalizing db c num with
  | zero => exact guarded_diverges
  | succ fuel ih =>
      refine (guarded_inner _).bind fun next _ => ?_
      cases next.2 with
      | none => exact guarded_pure _
      | some id => exact (guarded_proxyCall (substituteId_ne_nil h)).bind fun rep _ => ih _ _ _

theorem inner_out_eq_ok {x : Exec α} {a : α} : (inner x).out = .ok a ↔ x = .ok a := by
  cases x <;> simp [inner, Except.mapError]

theorem inner_ok {x : Exec α} {a : α} (h : x = .ok a) : inner x = pure a := by
  subst h
  rfl

theorem argAt_eq {i : Nat} {a : RedisModuleString} (h : argv[i]? = some a) :
    argAt argv i = pure a := by
  rw [argAt, h]
  rfl

end Guard

/-! ## Taking apart -/

/-- The run ends in a fault of the code that is called: the parser, the search, the index, or a loop
that takes more rounds than it is given. -/
def CalleeFaults {α : Type} (t : ProxyRun α) : Prop :=
  ∃ f, t.out = .error (.inner f)

/-- The run takes its arguments apart safely: it reads no argument that is not there and no query
that was not assigned, and sends exactly one reply. -/
structure TakenApart {α : Type} (t : ProxyRun α) : Prop where
  guarded : Guarded t
  once : RepliesOnce t

section Apart

variable {α : Type} {t : ProxyRun α}

/-- A run that is guarded and replies at its end has no other fault than those of the code that is
called. -/
theorem takenApart_iff (hguarded : Guarded t) (hend : RepliesAtEnd t) :
    TakenApart t ↔ ¬CalleeFaults t := by
  constructor
  · rintro ⟨_, ⟨a, ha⟩, _⟩ ⟨f, hf⟩
    rw [ha] at hf
    cases hf
  · intro hno
    cases hout : t.out with
    | ok a => exact ⟨hguarded, ⟨a, hout⟩, by rw [hend, hout]⟩
    | error e =>
        cases e with
        | argv => exact absurd hout hguarded.argv
        | query => exact absurd hout hguarded.query
        | inner f => exact absurd ⟨f, hout⟩ hno

theorem not_takenApart_of_fault {e : ProxyFault} (h : t.out = .error e) : ¬TakenApart t := by
  rintro ⟨_, ⟨a, ha⟩, _⟩
  rw [h] at ha
  cases ha

end Apart

/-- The command is called on the key of an index, with enough arguments. -/
structure OnIndex (db : Keyspace) (argv : List RedisModuleString) (arity : Nat) (r : RedisIndex) :
    Prop where
  arity : arity ≤ argv.length
  index : ∃ index, argv[1]? = some index ∧ db index = some (.index r)

/-- Where the commands find a WHERE clause. -/
abbrev wherePosition (argv : List RedisModuleString) : Nat :=
  rmUtilArgExists (ascii "WHERE") argv 0

/-- `SI_ParseQuery` accepts the argument, as this query. -/
def AcceptedAs (host : Host) (r : RedisIndex) (qstr : RedisModuleString) (q : SIQuery) : Prop :=
  ∃ msg, siParseQuery host.now host.strtod host.tok siNewQuery qstr (some r.spec) =
    .ok (true, q, msg)

/-! ## The first id of a search -/

/-- The plan of the query selects none of the tuples that are stored; so it is too where the query
has no plan. -/
def SelectsNothing (r : RedisIndex) (q : SIQuery) : Prop :=
  ∀ q' plan, siBuildQueryPlan q r.spec = .ok (q', some plan) →
    ∀ id k, r.idx.content id = some k → ¬Selects r.idx.cmpFuncs plan k

/-- Changes have made the index what it is, and the query of the argument, if it is one, can be
planned for its columns. -/
structure Searchable (host : Host) (r : RedisIndex) (qstr : RedisModuleString) : Prop where
  reached : ∃ m, Reached r.spec r.idx m
  plannable : ∀ q, AcceptedAs host r qstr q → Plannable r.spec.types q.root

/-- The query of the argument is parsed, the search for it does not fail, and there is an id that it
returns. -/
def FindsFirst (host : Host) (r : RedisIndex) (qstr : RedisModuleString) : Prop :=
  ∃ q, AcceptedAs host r qstr q ∧ ∃ q' c, compoundIndexFindIn host.memory r.idx q = .ok (q', c) ∧
    c.error = .assigned siCursorOk ∧ ∃ c' id, c.callNext r.idx = .ok (c', some id)

section Search

variable {host : Host} {index : RedisModuleString} {argv : List RedisModuleString} {db : Keyspace}
  {r : RedisIndex} {fuel wherePos : Nat} {qstr : RedisModuleString} {q : SIQuery}

/-- The first `Next` of a search with a plan: it returns an id where the plan selects one. -/
theorem callNext_first {memory : CursorWords} {idx : CompoundIndex}
    {bs : List (Bucket KeyRef SIId)} {q' : SIQuery} {plan : SIQueryPlan}
    (h : IndexInv idx bs) (hq : Plannable idx.spec.types q.root)
    (hplan : siBuildQueryPlan q idx.spec = .ok (q', some plan)) :
    ∃ c c', compoundIndexFindIn memory idx q = .ok (q', c) ∧ c.error = .assigned siCursorOk ∧
      c.callNext idx = .ok (c', (planIds idx plan bs).head?) := by
  have hof := siBuildQueryPlan_spec hq hplan
  obtain ⟨sc, pending, hfind, rfl, hat, hids⟩ := compoundIndexFind_spec h.list hplan hof.planOk
  obtain ⟨sc', pending', hnext, _⟩ := scanNext_spec h.list hof.planOk hat
  rw [hids] at hnext
  refine ⟨scanCursor memory sc, scanCursor memory sc', ?_, rfl, ?_⟩
  · rw [compoundIndexFindIn_eq, hfind]
    rfl
  · rw [callNext_scanCursor, hnext, ok_bind]

/-- Without a plan the search fails. -/
theorem compoundIndexFindIn_none {memory : CursorWords} {idx : CompoundIndex} {q' q'' : SIQuery}
    {c : CursorStruct} (hplan : siBuildQueryPlan q idx.spec = .ok (q', none))
    (hfind : compoundIndexFindIn memory idx q = .ok (q'', c)) :
    c.error = .assigned siCursorError := by
  by_cases hnum : q.numPredicates = 0
  · rw [compoundIndexFindIn, if_pos hnum] at hfind
    rw [← (Prod.mk.inj (Except.ok.inj hfind)).2]
  · rw [compoundIndexFindIn, if_neg hnum, hplan, ok_bind] at hfind
    rw [← (Prod.mk.inj (Except.ok.inj hfind)).2]

theorem findsFirst_iff (h : Searchable host r qstr) :
    FindsFirst host r qstr ↔ ∃ q, AcceptedAs host r qstr q ∧ ¬SelectsNothing r q := by
  obtain ⟨⟨m, idx₀, css, hnew, htyped, hkeys, hrun, _⟩, hplannable⟩ := h
  obtain ⟨idx', hrun', ⟨hspec, bs, hinv⟩, _⟩ := (stands_new hnew).run htyped hkeys
  obtain rfl : r.idx = idx' := Except.ok.inj (hrun.symm.trans hrun')
  refine exists_congr fun q => and_congr_right fun hq => ?_
  have hplannable := hspec ▸ hplannable q hq
  rw [SelectsNothing, ← hspec]
  constructor
  · rintro ⟨q', c, hfind, herror, c', id, hnext⟩ hnothing
    cases hplan : siBuildQueryPlan q r.idx.spec with
    | error e =>
        by_cases hnum : q.numPredicates = 0
        · rw [compoundIndexFindIn, if_pos hnum] at hfind
          rw [← (Prod.mk.inj (Except.ok.inj hfind)).2] at herror
          cases herror
        · rw [compoundIndexFindIn, if_neg hnum, hplan] at hfind
          cases hfind
    | ok p =>
        obtain ⟨q₁, plan⟩ := p
        cases plan with
        | none =>
            rw [compoundIndexFindIn_none hplan hfind] at herror
            cases herror
        | some plan =>
            obtain ⟨c₁, c₁', hfind₁, _, hnext₁⟩ := callNext_first hinv hplannable hplan
            obtain ⟨rfl, rfl⟩ := Prod.mk.inj (Except.ok.inj (hfind.symm.trans hfind₁))
            have hid := (Prod.mk.inj (Except.ok.inj (hnext.symm.trans hnext₁))).2
            obtain ⟨k, hk, hselects⟩ :=
              (mem_planIds_selects hinv (siBuildQueryPlan_spec hplannable hplan).planOk).1
                (List.mem_of_head? hid.symm)
            exact hnothing _ _ hplan id k hk hselects
  · intro hsome
    push Not at hsome
    obtain ⟨q', plan, hplan, id, k, hk, hselects⟩ := hsome
    obtain ⟨c, c', hfind, herror, hnext⟩ := callNext_first hinv hplannable hplan
    have hmem := (mem_planIds_selects hinv (siBuildQueryPlan_spec hplannable hplan).planOk).2
      ⟨k, hk, hselects⟩
    obtain ⟨first, rest, hids⟩ := List.exists_cons_of_ne_nil (List.ne_nil_of_mem hmem)
    exact ⟨q', c, hfind, herror, c', first, by rw [hnext, hids, List.head?_cons]⟩

/-- The first `Next` reads the index as the command found it. -/
theorem queryIdSource_first (hdb : db index = some (.index r)) (c : CursorStruct) :
    queryIdSource db index c = c.callNext r.idx := by
  simp only [queryIdSource, openedIndex, hdb, ok_bind]

theorem guarded_fromWhere (hdb : db index = some (.index r))
    (hqstr : argv[wherePos + 1]? = some qstr)
    (h : wherePos + 2 < argv.length ∨ ¬FindsFirst host r qstr) :
    Guarded (fromWhere host fuel db index r argv wherePos) := by
  rw [fromWhere, argAt_eq hqstr, Traced.pure_bind]
  refine (guarded_inner _).bind fun parsed hparsed => ?_
  obtain ⟨accepted, q, msg⟩ := parsed
  have hparsed := inner_out_eq_ok.1 hparsed
  cases accepted with
  | false => cases msg <;> exact guarded_answer db _
  | true =>
      refine (guarded_emit _).bind fun _ _ => (guarded_inner _).bind fun found hfound =>
        (guarded_inner _).bind fun error herror => ?_
      obtain ⟨q', c⟩ := found
      have hfound := inner_out_eq_ok.1 hfound
      have herror := inner_out_eq_ok.1 herror
      by_cases hok : error ≠ siCursorOk
      · simpa only [if_pos hok] using guarded_answer db _
      · simp only [if_neg hok]
        refine Guarded.bind ?_ fun res _ => (guarded_inner _).bind fun _ _ => guarded_answer _ _
        rcases h with hlen | hno
        · -- With a command behind the query every call has arguments.
          have hargs : argv.drop (wherePos + 2) ≠ [] := by
            rw [Ne, List.drop_eq_nil_iff]
            omega
          exact guarded_readLoop hargs fuel db c 0
        · -- There may be no command, but then none is called.
          cases fuel with
          | zero => exact guarded_diverges
          | succ fuel =>
              refine (guarded_inner _).bind fun next hnext => ?_
              have hnext := inner_out_eq_ok.1 hnext
              rw [queryIdSource_first hdb] at hnext
              obtain ⟨c', id⟩ := next
              cases id with
              | none => exact guarded_pure _
              | some id =>
                  have hassigned : c.error = .assigned siCursorOk := by
                    rw [← not_not.1 hok]
                    cases hc : c.error <;> simp_all
                  exact absurd ⟨q, ⟨msg, hparsed⟩, q', c, hfound, hassigned, c', id, hnext⟩ hno

/-- With nothing behind the query, the command is read behind the end of `argv` once there is an
id to call it for. -/
theorem fromWhere_faults (hdb : db index = some (.index r))
    (hqstr : argv[wherePos + 1]? = some qstr) (hlen : argv.length = wherePos + 2)
    (h : FindsFirst host r qstr) :
    ∃ e, (fromWhere host fuel db index r argv wherePos).out = .error e := by
  obtain ⟨q, ⟨msg, hparsed⟩, q', c, hfound, herror, c', id, hnext⟩ := h
  have hnone : argv.drop (wherePos + 2) = [] := by
    rw [List.drop_eq_nil_iff]
    omega
  rw [← queryIdSource_first hdb] at hnext
  have hread : c.error.read Fault.unset = .ok siCursorOk := by rw [herror, Field.read_assigned]
  rw [fromWhere, argAt_eq hqstr, Traced.pure_bind, inner_ok hparsed, Traced.pure_bind]
  simp only [hashIndexExecuteReadCommand, hnone, inner_ok hfound, inner_ok hread,
    Traced.pure_bind, ne_eq, not_true_eq_false, if_false, emit_bind]
  cases fuel with
  | zero => exact ⟨_, rfl⟩
  | succ fuel =>
      refine ⟨.argv, ?_⟩
      simp only [readLoop, inner_ok hnext, Traced.pure_bind]
      rfl

end Search

/-! ## IDX.FROM -/

/-- WHERE is found, a query follows it, and behind the query there is a command, or nothing is
selected that it would be called for. -/
def FromReadable (host : Host) (r : RedisIndex) (argv : List RedisModuleString) : Prop :=
  wherePosition argv ≠ 0 ∧ ∃ qstr, argv[wherePosition argv + 1]? = some qstr ∧
    (wherePosition argv + 2 < argv.length ∨ ∀ q, AcceptedAs host r qstr q → SelectsNothing r q)

/-- Where nothing is behind the query, the index can be searched for it. -/
def LastSearchable (host : Host) (r : RedisIndex) (argv : List RedisModuleString) : Prop :=
  argv.length = wherePosition argv + 2 → ∀ qstr, argv[wherePosition argv + 1]? = some qstr →
    Searchable host r qstr

theorem indexFromCommand_takenApart_iff {host : Host} {db : Keyspace}
    {argv : List RedisModuleString} {r : RedisIndex} (h : OnIndex db argv 6 r)
    (hlast : LastSearchable host r argv) (fuel : Nat) :
    TakenApart (indexFromCommand host fuel db argv) ↔
      FromReadable host r argv ∧ ¬CalleeFaults (indexFromCommand host fuel db argv) := by
  obtain ⟨harity, index, hindex, hdb⟩ := h
  have hlong : ¬argv.length < 6 := by omega
  by_cases hwhere : wherePosition argv = 0 ∨ argv.length - 1 ≤ wherePosition argv
  · -- The error is sent before anything else is.
    have hrun : indexFromCommand host fuel db argv =
        emit (.reply (.error (ascii "No Where clause given"))) >>= fun _ =>
          fromWhere host fuel db index r argv (wherePosition argv) := by
      rw [indexFromCommand, if_neg hlong, argAt_eq hindex, Traced.pure_bind]
      simp only [hdb]
      rw [if_pos hwhere]
    refine iff_of_false (fun happart => ?_) ?_
    · rw [hrun] at happart
      exact not_repliesOnce_of_answered
        (repliesAtEnd_fromWhere fuel db r (wherePosition argv)) happart.once
    · rintro ⟨⟨hne, qstr, hqstr, _⟩, _⟩
      have hlt := (List.getElem?_eq_some_iff.1 hqstr).1
      rcases hwhere with hzero | hlast
      · exact hne hzero
      · omega
  · have hrun : indexFromCommand host fuel db argv =
        fromWhere host fuel db index r argv (wherePosition argv) := by
      rw [indexFromCommand, if_neg hlong, argAt_eq hindex, Traced.pure_bind]
      simp only [hdb]
      rw [if_neg hwhere]
    -- The query is there; the command behind it may not be.
    obtain ⟨qstr, hqstr⟩ : ∃ qstr, argv[wherePosition argv + 1]? = some qstr :=
      ⟨_, List.getElem?_eq_getElem (by omega)⟩
    have hreadable : FromReadable host r argv ↔
        (wherePosition argv + 2 < argv.length ∨ ¬FindsFirst host r qstr) := by
      have hcorner : ¬wherePosition argv + 2 < argv.length →
          ((∀ q, AcceptedAs host r qstr q → SelectsNothing r q) ↔ ¬FindsFirst host r qstr) := by
        intro hlen
        rw [findsFirst_iff (hlast (by omega) qstr hqstr)]
        push Not
        rfl
      have hor : (wherePosition argv + 2 < argv.length ∨
          ∀ q, AcceptedAs host r qstr q → SelectsNothing r q) ↔
            (wherePosition argv + 2 < argv.length ∨ ¬FindsFirst host r qstr) :=
        or_congr_right' hcorner
      rw [← hor]
      constructor
      · rintro ⟨_, qstr', hqstr', hor'⟩
        obtain rfl : qstr = qstr' := Option.some.inj (hqstr.symm.trans hqstr')
        exact hor'
      · exact fun hor' => ⟨by omega, qstr, hqstr, hor'⟩
    rw [hreadable, hrun]
    by_cases hor : wherePosition argv + 2 < argv.length ∨ ¬FindsFirst host r qstr
    · rw [takenApart_iff (guarded_fromWhere hdb hqstr hor) (repliesAtEnd_fromWhere fuel db r _)]
      exact ⟨fun hno => ⟨hor, hno⟩, And.right⟩
    · refine iff_of_false ?_ fun hboth => hor hboth.1
      rw [not_or, not_not] at hor
      obtain ⟨e, he⟩ :
          ∃ e, (fromWhere host fuel db index r argv (wherePosition argv)).out = .error e :=
        fromWhere_faults hdb hqstr (by omega) hor.2
      exact not_takenApart_of_fault he

/-! ## What IDX.INTO executes -/

section Events

variable {host : Host} {index : RedisModuleString} {argv : List RedisModuleString}
  {P : ProxyEvent → Prop}

theorem logs_answer (db : Keyspace) {r : ProxyReply} (h : P (.reply r)) :
    (answer db r).Logs P := by
  simpa [answer, Logs] using h

theorem logs_proxyCall (call : RedisCall) (db : Keyspace) {args : List RedisModuleString}
    (h : P (.call args)) : (proxyCall call db args).Logs P := by
  cases args with
  | nil => exact logs_lift _ P
  | cons cmd args => simpa [proxyCall, Logs] using h

theorem logs_createIndexedTransaction (idx : CompoundIndex) {q : Option (Option SIQuery)}
    (h : P (.handOn q.isSome argv)) : (createIndexedTransaction host idx q argv).Logs P := by
  have hemit : (Traced.emit (.handOn q.isSome argv) : ProxyRun Unit).Logs P := by
    simpa [Logs] using h
  refine hemit.bind fun _ _ => (logs_lift _ P).bind fun name _ => ?_
  cases hashIndexGetHandler host.strtod name with
  | none => exact logs_lift (.ok _) P
  | some cmd =>
      cases q with
      | none =>
          cases hashIndexGetIdsForCommand host.strtod argv <;> simp [Logs]
      | some q =>
          refine (logs_lift _ P).bind fun q _ => (logs_lift _ P).bind fun found _ => ?_
          obtain ⟨_, c⟩ := found
          cases c <;> exact logs_lift (.ok _) P

theorem logs_intoLoop {parametric : Bool} {cmd : IndexedCommandProxy}
    (hreply : ∀ r, P (.reply r))
    (hcall : ∀ id, P (.call (if parametric then substituteId id argv else argv)))
    (fuel : Nat) (db : Keyspace) (ids : IdSource) (num : Nat) :
    (intoLoop host index parametric argv cmd fuel db ids num).Logs P := by
  induction fuel generalizing db ids num with
  | zero => exact logs_lift _ P
  | succ fuel ih =>
      refine (logs_lift _ P).bind fun next _ => ?_
      cases next.2 with
      | none => exact logs_answer db (hreply _)
      | some id =>
          refine (logs_proxyCall _ _ (hcall id)).bind fun rep _ => ?_
          by_cases herror : rep.2 ≠ .error
          · simp only [if_pos herror]
            refine (logs_lift _ P).bind fun rc _ => ?_
            by_cases hok : rc.2 ≠ redismoduleOk
            · simpa only [if_pos hok] using logs_answer rc.1 (hreply _)
            · simpa only [if_neg hok] using ih _ _ _
          · simpa only [if_neg herror] using ih _ _ _

theorem logs_intoCommand {fuel : Nat} {db : Keyspace} {r : RedisIndex} {wherePos : Nat}
    {q : Option SIQuery} (hreply : ∀ r, P (.reply r))
    (hhand : P (.handOn (decide (wherePos ≠ 0))
      (argv.drop (if wherePos ≠ 0 then wherePos + 2 else 2))))
    (hcall : ∀ id, P (.call (if decide (wherePos ≠ 0) then
      substituteId id (argv.drop (if wherePos ≠ 0 then wherePos + 2 else 2))
        else argv.drop (if wherePos ≠ 0 then wherePos + 2 else 2)))) :
    (intoCommand host fuel db index r argv wherePos q).Logs P := by
  refine (logs_createIndexedTransaction _ ?_).bind fun tx _ => ?_
  · by_cases hw : wherePos ≠ 0
    · simpa [hw] using hhand
    · simpa [hw] using hhand
  · cases tx with
    | error msg => exact logs_answer db (hreply _)
    | ok tx => exact logs_intoLoop hreply hcall fuel db tx.ids 0

end Events

/-- The arguments behind the name of the index are handed on without a query, nothing else is
executed, and where their command is one that IDX.INTO knows they are executed. -/
structure HandsOnExactly {α : Type} (host : Host) (argv : List RedisModuleString)
    (t : ProxyRun α) : Prop where
  handed : .handOn false (argv.drop 2) ∈ t.log
  only : t.Logs fun e => ∀ args, e = .call args → args = argv.drop 2
  executed : ∀ cmd, argv[2]? = some cmd → (hashIndexGetHandler host.strtod cmd).isSome →
    .call (argv.drop 2) ∈ t.log

/-- The third argument is WHERE. -/
def ThirdIsWhere (argv : List RedisModuleString) : Prop :=
  ∃ a, argv[2]? = some a ∧ strcasecmp a (ascii "WHERE") = 0

/-- IDX.INTO takes its arguments apart safely, and executes what it was given where the third
argument is not WHERE. -/
structure IntoSafe {α : Type} (host : Host) (argv : List RedisModuleString) (t : ProxyRun α) :
    Prop where
  apart : TakenApart t
  handsOn : ¬ThirdIsWhere argv → HandsOnExactly host argv t

/-- WHERE is not found at all, or it is the third argument, and then no query that can be parsed is
the last one. -/
def IntoReadable (host : Host) (r : RedisIndex) (argv : List RedisModuleString) : Prop :=
  wherePosition argv = 0 ∨ ThirdIsWhere argv ∧
    ¬(wherePosition argv = 2 ∧ argv.length = 4 ∧
      ∃ qstr q, argv[3]? = some qstr ∧ AcceptedAs host r qstr q)

section Into

variable {host : Host} {db : Keyspace} {index : RedisModuleString}
  {argv : List RedisModuleString} {r : RedisIndex}

/-- A command that has a handler has keys. -/
theorem getIdsForCommand_of_handler {strtod : List UInt8 → Strtod} {cmd : RedisModuleString}
    {handler : IndexedCommandProxy} (h : hashIndexGetHandler strtod cmd = some handler)
    (key : RedisModuleString) (args : List RedisModuleString) :
    ∃ keys, hashIndexGetIdsForCommand strtod (cmd :: key :: args) =
      some (.staticIdSource (key :: keys)) := by
  obtain ⟨d, hd, -⟩ := Option.map_eq_some_iff.1 h
  have hname : cmd = d.name := by simpa [rmUtilStringEqualsC] using List.find?_some hd
  have hcmd : cmd ∈ hashWriteCommands ∨ cmd = ascii "DEL" := by
    have hmem := List.mem_of_find?_eq_some hd
    simp only [supportedHashWriteCommands, List.mem_cons, List.not_mem_nil, or_false] at hmem
    rw [hname]
    rcases hmem with rfl | rfl | rfl | rfl | rfl | rfl | rfl <;> simp [hashWriteCommands]
  rcases hcmd with hcmd | rfl
  · exact ⟨[], (hashWrite_transaction strtod key args hcmd).2.2⟩
  · exact ⟨args, (del_transaction strtod key args).2⟩

theorem call_mem_intoLoop {handler : IndexedCommandProxy} (fuel num : Nat)
    {cmd key : RedisModuleString} {args keys : List RedisModuleString} :
    .call (cmd :: args) ∈ (intoLoop host index false (cmd :: args) handler (fuel + 1) db
      (.staticIdSource (key :: keys)) num).log := by
  rw [intoLoop, nextId, inner_ok rfl, Traced.pure_bind]
  exact mem_log_bind (mem_log_emit_bind _ _) _

/-- Without a query the arguments are handed on as they are. -/
theorem handsOn_intoCommand {fuel : Nat} {into cmd key : RedisModuleString}
    {args : List RedisModuleString}
    (hno : ¬CalleeFaults
      (intoCommand host fuel db index r (into :: index :: cmd :: key :: args) 0 none)) :
    HandsOnExactly host (into :: index :: cmd :: key :: args)
      (intoCommand host fuel db index r (into :: index :: cmd :: key :: args) 0 none) where
  handed := mem_log_bind (mem_log_emit_bind _ _) _
  only := by
    refine logs_intoCommand (fun r args h => ?_) (fun args h => ?_) (fun id args h => ?_)
    · cases h
    · cases h
    · simpa using (ProxyEvent.call.inj h).symm
  executed := by
    intro cmd' hcmd hsome
    obtain rfl : cmd = cmd' := Option.some.inj hcmd
    obtain ⟨handler, hhandler⟩ := Option.isSome_iff_exists.1 hsome
    obtain ⟨keys, hkeys⟩ := getIdsForCommand_of_handler hhandler key args
    have htx : (createIndexedTransaction host r.idx none (cmd :: key :: args)).out =
        .ok (.ok { cmd := handler, ids := .staticIdSource (key :: keys) }) := by
      simp only [createIndexedTransaction, argAt, List.getElem?_cons_zero, orFault_some, emit_bind,
        lift_ok_bind, hhandler, hkeys]
      rfl
    cases fuel with
    | zero =>
        -- No round is made.
        exact absurd ⟨.diverges, congrArg Traced.out (bind_ok htx _)⟩ hno
    | succ fuel => exact mem_log_bind_right htx (call_mem_intoLoop fuel 0)

/-- Where the query is parsed, nothing is handed on without one. -/
theorem logs_intoCommand_query {fuel wherePos : Nat} {q : Option SIQuery} (h : wherePos ≠ 0) :
    (intoCommand host fuel db index r argv wherePos q).Logs
      fun e => ∀ args, e ≠ .handOn false args := by
  refine logs_intoCommand (fun r args h' => ?_) (fun args h' => ?_) (fun id args h' => ?_)
  · cases h'
  · have := (ProxyEvent.handOn.inj h').1
    simp [h] at this
  · cases h'

/-- `IndexIntoCommand` with a WHERE clause that a query follows. -/
def intoWhere (host : Host) (fuel : Nat) (db : Keyspace) (index : RedisModuleString)
    (r : RedisIndex) (argv : List RedisModuleString) (qstr : RedisModuleString) :
    ProxyRun (Keyspace × ProxyReply) := do
  let parsed ← inner (siParseQuery host.now host.strtod host.tok siNewQuery qstr (some r.spec))
  match parsed.1, parsed.2.2 with
  | true, _ => intoCommand host fuel db index r argv (wherePosition argv) (some parsed.2.1)
  | false, some parseError => answer db (.error parseError.bytes)
  | false, none => answer db (.error (ascii "Error parsing WHERE query string"))

theorem guarded_intoWhere {fuel : Nat} {qstr : RedisModuleString}
    (h : wherePosition argv + 2 < argv.length ∨ ¬∃ q, AcceptedAs host r qstr q)
    (hwhere : wherePosition argv ≠ 0) : Guarded (intoWhere host fuel db index r argv qstr) := by
  refine (guarded_inner _).bind fun parsed hparsed => ?_
  obtain ⟨accepted, q, msg⟩ := parsed
  cases accepted with
  | false => cases msg <;> exact guarded_answer db _
  | true =>
      rcases h with hlen | hno
      · refine guarded_intoCommand (fun _ => by simp) ?_
        rw [if_pos hwhere, Ne, List.drop_eq_nil_iff]
        omega
      · exact absurd ⟨q, msg, inner_out_eq_ok.1 hparsed⟩ hno

theorem repliesAtEnd_intoWhere {fuel : Nat} {qstr : RedisModuleString} :
    RepliesAtEnd (intoWhere host fuel db index r argv qstr) := by
  refine (noReply_inner _).bind fun parsed _ => ?_
  obtain ⟨accepted, q, msg⟩ := parsed
  cases accepted with
  | true => exact repliesAtEnd_intoCommand fuel db r _ _
  | false => cases msg <;> exact repliesAtEnd_answer db _

theorem logs_intoWhere {fuel : Nat} {qstr : RedisModuleString} (hwhere : wherePosition argv ≠ 0) :
    (intoWhere host fuel db index r argv qstr).Logs fun e => ∀ args, e ≠ .handOn false args := by
  refine (logs_lift _ _).bind fun parsed _ => ?_
  obtain ⟨accepted, q, msg⟩ := parsed
  have hanswer : ∀ r, (answer db r).Logs fun e => ∀ args, e ≠ .handOn false args :=
    fun r => logs_answer db fun args h => by cases h
  cases accepted with
  | true => exact logs_intoCommand_query hwhere
  | false => cases msg <;> exact hanswer _

/-- With nothing behind an accepted query, the name of the command is read behind the end of
`argv`. -/
theorem intoWhere_argv {fuel : Nat} {qstr : RedisModuleString} (hwhere : wherePosition argv ≠ 0)
    {q : SIQuery} (hlen : argv.length = wherePosition argv + 2) (h : AcceptedAs host r qstr q) :
    (intoWhere host fuel db index r argv qstr).out = .error .argv := by
  obtain ⟨msg, hparsed⟩ := h
  have hnone : argv.drop (wherePosition argv + 2) = [] := by
    rw [List.drop_eq_nil_iff]
    omega
  rw [intoWhere, inner_ok hparsed, Traced.pure_bind]
  simp only [intoCommand, if_pos hwhere, hnone, createIndexedTransaction]
  rfl

/-- The three ways through IDX.INTO. -/
theorem indexIntoRun_eq {fuel : Nat} (harity : 4 ≤ argv.length) (hindex : argv[1]? = some index)
    (hdb : db index = some (.index r)) :
    indexIntoRun host fuel db argv =
      if h : wherePosition argv ≠ 0 ∧ wherePosition argv + 1 < argv.length then
        intoWhere host fuel db index r argv argv[wherePosition argv + 1]
      else
        intoCommand host fuel db index r argv (wherePosition argv) none := by
  have hshort : ¬argv.length < 4 := by omega
  rw [indexIntoRun, if_neg hshort, argAt_eq hindex, Traced.pure_bind]
  simp only [hdb]
  by_cases hwhere : wherePosition argv ≠ 0 ∧ wherePosition argv + 1 < argv.length
  · rw [dif_pos hwhere, if_pos ⟨hwhere.1, Nat.lt_sub_of_add_lt hwhere.2⟩,
      argAt_eq (List.getElem?_eq_getElem hwhere.2), Traced.pure_bind]
    rfl
  · rw [dif_neg hwhere, if_neg]
    rintro ⟨hne, hlt⟩
    exact hwhere ⟨hne, Nat.add_lt_of_lt_sub hlt⟩

theorem indexIntoRun_intoSafe_iff (h : OnIndex db argv 4 r) (fuel : Nat) :
    IntoSafe host argv (indexIntoRun host fuel db argv) ↔
      IntoReadable host r argv ∧ ¬CalleeFaults (indexIntoRun host fuel db argv) := by
  obtain ⟨harity, index, hindex, hdb⟩ := h
  rw [indexIntoRun_eq harity hindex hdb]
  by_cases hzero : wherePosition argv = 0
  · -- The command begins at the third argument, and there are two arguments for it.
    rw [dif_neg fun hwhere => hwhere.1 hzero, hzero]
    have hguarded : Guarded (intoCommand host fuel db index r argv 0 none) := by
      refine guarded_intoCommand (fun hne => absurd rfl hne) ?_
      rw [if_neg (by simp), Ne, List.drop_eq_nil_iff]
      omega
    have happart := takenApart_iff hguarded (repliesAtEnd_intoCommand fuel db r 0 none)
    refine ⟨fun hsafe => ⟨Or.inl hzero, happart.1 hsafe.apart⟩, fun hboth => ?_⟩
    refine ⟨happart.2 hboth.2, fun _ => ?_⟩
    obtain ⟨into, index', cmd, key, args, rfl⟩ :
        ∃ into index' cmd key args, argv = into :: index' :: cmd :: key :: args := by
      match argv, harity with
      | into :: index' :: cmd :: key :: args, _ => exact ⟨_, _, _, _, _, rfl⟩
    obtain rfl : index' = index := Option.some.inj hindex
    exact handsOn_intoCommand hboth.2
  · by_cases hthird : ThirdIsWhere argv
    · -- The third argument is WHERE: a query may follow, and then a command.
      obtain ⟨a, ha, hword⟩ := hthird
      have hle : wherePosition argv ≤ 2 := (rmUtilArgExists_spec hzero).2 2 a ha hword
      have hwhere : wherePosition argv ≠ 0 ∧ wherePosition argv + 1 < argv.length :=
        ⟨hzero, by omega⟩
      rw [dif_pos hwhere]
      by_cases hbad : wherePosition argv = 2 ∧ argv.length = 4 ∧
          ∃ qstr q, argv[3]? = some qstr ∧ AcceptedAs host r qstr q
      · refine iff_of_false (fun hsafe => ?_) fun hboth => ?_
        · obtain ⟨htwo, hfour, qstr, q, hqstr, haccepted⟩ := hbad
          have hlast : argv[wherePosition argv + 1] = qstr := by
            simp only [htwo]
            exact (List.getElem?_eq_some_iff.1 hqstr).2
          exact not_takenApart_of_fault
            (intoWhere_argv hzero (by omega) (hlast ▸ haccepted)) hsafe.apart
        · rcases hboth.1 with hzero' | ⟨_, hno⟩
          · exact hzero hzero'
          · exact hno hbad
      · have hguarded :
            Guarded (intoWhere host fuel db index r argv argv[wherePosition argv + 1]) := by
          refine guarded_intoWhere ?_ hzero
          by_cases hlen : wherePosition argv + 2 < argv.length
          · exact Or.inl hlen
          · refine Or.inr fun ⟨q, haccepted⟩ => hbad ⟨by omega, by omega, _, q, ?_, haccepted⟩
            have hthree : wherePosition argv + 1 = 3 := by omega
            simp only [hthree]
            exact List.getElem?_eq_getElem (by omega)
        have happart := takenApart_iff hguarded repliesAtEnd_intoWhere
        exact ⟨fun hsafe => ⟨Or.inr ⟨⟨a, ha, hword⟩, hbad⟩, happart.1 hsafe.apart⟩,
          fun hboth => ⟨happart.2 hboth.2, fun hnot => absurd ⟨a, ha, hword⟩ hnot⟩⟩
    · -- A word WHERE behind the third argument: nothing is handed on as it was given.
      refine iff_of_false (fun hsafe => ?_) ?_
      · have hlogs : (indexIntoRun host fuel db argv).Logs
            fun e => ∀ args, e ≠ .handOn false args := by
          rw [indexIntoRun_eq harity hindex hdb]
          split
          · exact logs_intoWhere hzero
          · exact logs_intoCommand_query hzero
        have hhanded := (hsafe.handsOn hthird).handed
        rw [← indexIntoRun_eq harity hindex hdb] at hhanded
        exact hlogs _ hhanded _ rfl
      · rintro ⟨hzero' | ⟨hthird', _⟩, _⟩
        · exact hzero hzero'
        · exact hthird hthird'

/-- A command with a query that has no scan range: the cursor of the search that fails is freed
through a field that was never assigned, before anything is replied. -/
theorem indexIntoRun_unset {fuel : Nat} {into sep qstr cmd : RedisModuleString}
    {args : List RedisModuleString} {handler : IndexedCommandProxy} {q : SIQuery}
    (hdb : db index = some (.index r))
    (hwhere : wherePosition (into :: index :: sep :: qstr :: cmd :: args) = 2)
    (hhandler : hashIndexGetHandler host.strtod cmd = some handler)
    (haccepted : AcceptedAs host r qstr q) (hspec : r.idx.spec = r.spec)
    (h : ¬HasScanRange r.spec q) :
    (indexIntoRun host fuel db (into :: index :: sep :: qstr :: cmd :: args)).out =
      .error (.inner .unset) := by
  obtain ⟨msg, hparsed⟩ := haccepted
  have hids : hashIndexGetIdsFromQuery host.memory r.idx (some q) = .error .unset :=
    hashIndexGetIdsFromQuery_error (hspec ▸ h)
  have hquery : (wherePosition (into :: index :: sep :: qstr :: cmd :: args) ≠ 0 ∧
      wherePosition (into :: index :: sep :: qstr :: cmd :: args) + 1 <
        (into :: index :: sep :: qstr :: cmd :: args).length) := by
    simp [hwhere]
  rw [indexIntoRun_eq (by simp) rfl hdb, dif_pos hquery]
  simp only [hwhere, intoWhere, List.getElem_cons_succ, List.getElem_cons_zero, inner_ok hparsed,
    Traced.pure_bind, intoCommand, createIndexedTransaction, ne_eq, OfNat.ofNat_ne_zero,
    not_false_eq_true, if_true, List.drop_succ_cons, List.drop_zero, Option.isSome_some, argAt,
    List.getElem?_cons_zero, orFault_some, lift_ok_bind, hhandler, hids]
  rfl

end Into

/-! ## Both commands -/

/-- IDX.INTO with HSET. -/
def hsetArgs (val : List UInt8) : List RedisModuleString :=
  [ascii "IDX.INTO", ascii "i", ascii "HSET", ascii "j", ascii "f", val]

/-- IDX.FROM with HMGET, without a WHERE clause. -/
def hmgetArgs : List RedisModuleString :=
  [ascii "IDX.FROM", ascii "i", ascii "HMGET", ascii "$", ascii "f", ascii "g"]

/-- IDX.FROM with the WHERE clause `$1 = 5` at the end. -/
def whereLastArgs : List RedisModuleString :=
  [ascii "IDX.FROM", ascii "i", ascii "HMGET", ascii "$", ascii "WHERE", ascii "$1 = 5"]

/-- An index of hashes by one 64-bit integer. -/
def indexInt64 (idx : CompoundIndex) : RedisIndex where
  kind := .hashIndex
  flags := 0
  spec := oneColumn .int64 0
  idx := idx

end Secondary
