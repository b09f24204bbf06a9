import Secondary.Parser.Precedence
import Secondary.Query.Parse
import Secondary.Query.Semantics

/-!
# Query.ParseSpec — the query tree says what the parse tree says

`Denotes` is what a predicate of the grammar says of the value of its column, in the order of the
column.  `TranslationRefines` says that the query tree has the shape of the parse tree, and that
its leaves accept what the predicates denote.  Two operators break it: `!=` has no node, so that
`traverseNode` goes through a NULL pointer, and the range of `LIKE 'p%'` ends too early.
-/

namespace Secondary

open Lib Lib.ShiftReduce

/-! ## Trees that the grammar builds -/

def comparisonOps : List Terminal :=
  [.EQ, .NE, .GT, .GE, .LT, .LE]

/-- The predicates that the rules of `cond` make; a constant is no NULL and not infinite. -/
inductive PredicateNode.Built : PredicateNode → Prop where
  | comparison {prop : Property} {op : Terminal} {w : SIValue} :
      op ∈ comparisonOps → w.rank = 1 → Built { prop := prop, op := op, operand := .val w }
  | like {prop : Property} {s : CString} :
      Built { prop := prop, op := .LIKE, operand := .val (.string s.bytes) }
  | isNull {prop : Property} : Built { prop := prop, op := .IS, operand := .val .null }
  | inList {prop : Property} {ws : List SIValue} :
      (∀ w ∈ ws, w.rank = 1) → Built { prop := prop, op := .IN, operand := .lst ws }

/-- A property has a name or a number. -/
def Property.Built (prop : Property) : Prop :=
  prop.name ≠ none → prop.id = 0

def ParseNode.Built : ParseNode → Prop
  | .pred pn => pn.Built ∧ pn.prop.Built
  | .cond left op right => (op = .AND ∨ op = .OR) ∧ left.Built ∧ right.Built

/-- The values that the grammar makes. -/
def Made : Symbol → YYMINORTYPE → Prop
  | .n .cond, v => ∃ n, v = .yy8 n ∧ n.Built
  | .n .op, v => ∃ op, v = .yy64op op ∧ op ∈ comparisonOps
  | .n .prop, v => ∃ p, v = .yy44 p ∧ p.Built
  | .n .value, v => ∃ w, v = .yy22 w ∧ w.rank = 1
  | .n .vallist, v => ∃ ws, v = .yy27 ws ∧ ∀ w ∈ ws, w.rank = 1
  | .n .multivals, v => ∃ ws, v = .yy27 ws ∧ ∀ w ∈ ws, w.rank = 1
  | X, v => MinorOk X v

theorem Made.minorOk : ∀ {X : Symbol} {v : YYMINORTYPE}, Made X v → MinorOk X v
  | .t _, _, h => h
  | .n .query, _, h => h
  | .n .cond, _, ⟨n, hn, _⟩ => ⟨n, hn⟩
  | .n .op, _, ⟨op, hop, _⟩ => ⟨op, hop⟩
  | .n .prop, _, ⟨p, hp, _⟩ => ⟨p, hp⟩
  | .n .value, _, ⟨w, hw, _⟩ => ⟨w, hw⟩
  | .n .vallist, _, ⟨ws, hws, _⟩ => ⟨ws, hws⟩
  | .n .multivals, _, ⟨ws, hws, _⟩ => ⟨ws, hws⟩
  | .n .timestamp, _, h => h
  | .n .duration, _, h => h

theorem parserActions_made (now : Int64) :
    TypedActions parserGrammar (parserActions now) Made := by
  intro r xs v h hv
  have hminor := parserActions_typed now r xs v (h.imp fun _ _ => Made.minorOk) hv
  obtain ⟨r, hr⟩ := r
  interval_cases r
  -- `query`
  · exact hminor
  -- `op`
  · cases hv
    exact ⟨_, rfl, by decide⟩
  · cases hv
    exact ⟨_, rfl, by decide⟩
  · cases hv
    exact ⟨_, rfl, by decide⟩
  · cases hv
    exact ⟨_, rfl, by decide⟩
  · cases hv
    exact ⟨_, rfl, by decide⟩
  · cases hv
    exact ⟨_, rfl, by decide⟩
  -- `cond`
  · obtain ⟨_, _, _, rfl, ⟨_, rfl, hp⟩, ⟨_, rfl, hop⟩, ⟨_, rfl, hw⟩⟩ := forall₂_three h
    cases hv
    exact ⟨_, rfl, .comparison hop hw, hp⟩
  · obtain ⟨_, _, _, rfl, ⟨_, rfl, hp⟩, _, ⟨_, rfl, _, rfl⟩⟩ := forall₂_three h
    cases hv
    exact ⟨_, rfl, .like, hp⟩
  · obtain ⟨_, _, _, rfl, ⟨_, rfl, hp⟩, _, _⟩ := forall₂_three h
    cases hv
    exact ⟨_, rfl, .isNull, hp⟩
  · obtain ⟨_, _, _, rfl, ⟨_, rfl, hp⟩, _, ⟨_, rfl, hws⟩⟩ := forall₂_three h
    cases hv
    exact ⟨_, rfl, .inList hws, hp⟩
  · obtain ⟨_, _, _, rfl, _, ⟨_, rfl, hn⟩, _⟩ := forall₂_three h
    cases hv
    exact ⟨_, rfl, hn⟩
  · obtain ⟨_, _, _, rfl, ⟨_, rfl, hl⟩, _, ⟨_, rfl, hr⟩⟩ := forall₂_three h
    cases hv
    exact ⟨_, rfl, Or.inl rfl, hl, hr⟩
  · obtain ⟨_, _, _, rfl, ⟨_, rfl, hl⟩, _, ⟨_, rfl, hr⟩⟩ := forall₂_three h
    cases hv
    exact ⟨_, rfl, Or.inr rfl, hl, hr⟩
  -- `value`
  · obtain ⟨_, rfl, _, rfl, _, rfl⟩ := forall₂_one h
    cases hv
    exact ⟨_, rfl, rfl⟩
  · obtain ⟨_, rfl, _, rfl, _, rfl⟩ := forall₂_one h
    cases hv
    exact ⟨_, rfl, rfl⟩
  · obtain ⟨_, rfl, _, rfl, _, rfl⟩ := forall₂_one h
    cases hv
    exact ⟨_, rfl, rfl⟩
  · cases hv
    exact ⟨_, rfl, rfl⟩
  · cases hv
    exact ⟨_, rfl, rfl⟩
  · obtain ⟨_, rfl, _, rfl⟩ := forall₂_one h
    cases hv
    exact ⟨_, rfl, rfl⟩
  -- `vallist` and `multivals`
  · obtain ⟨_, _, _, rfl, _, ⟨_, rfl, hws⟩, _⟩ := forall₂_three h
    cases hv
    exact ⟨_, rfl, hws⟩
  · obtain ⟨_, _, _, rfl, ⟨_, rfl, hb⟩, _, ⟨_, rfl, hc⟩⟩ := forall₂_three h
    cases hv
    exact ⟨_, rfl, by simp [hb, hc]⟩
  · obtain ⟨x, y, z, rfl, ⟨bs, rfl, hbs⟩, _, ⟨c, rfl, hc⟩⟩ := forall₂_three h
    have happend : (yyRuleMinor now 22 [.yy27 bs, y, .yy22 c]).toOption = some v := hv
    rw [yyRuleMinor_append, multivalsAppend_eq] at happend
    split_ifs at happend
    · cases happend
      refine ⟨_, rfl, fun w hw => ?_⟩
      rcases List.mem_append.1 hw with hw | hw
      · exact hbs w hw
      · rwa [List.mem_singleton.1 hw]
    · cases happend
  -- `prop`
  · obtain ⟨_, rfl, _, rfl, _, rfl⟩ := forall₂_one h
    cases hv
    exact ⟨_, rfl, fun hname => absurd rfl hname⟩
  · obtain ⟨_, rfl, _, rfl, _, rfl⟩ := forall₂_one h
    cases hv
    exact ⟨_, rfl, fun _ => rfl⟩
  -- `timestamp` and `duration`
  all_goals exact hminor

/-- A parse tree that the grammar builds. -/
theorem built_of_evaluates {now : Int64} {toks : List Lexeme} {n : ParseNode}
    (h : Evaluates parserGrammar (parserActions now) [.n .cond] toks [.yy8 n])
    (htoks : ∀ k ∈ toks, LexemeOk k) : n.Built := by
  have hmade := h.typed (parserActions_made now) fun k hk =>
    (minorOk_of_lexemeOk htoks k hk : MinorOk _ _)
  obtain ⟨_, heq, n', rfl, hn⟩ := forall₂_one hmade
  cases heq
  exact hn

/-! ## Strings in a prefix range -/

/-- What `si_cmp_string` makes of two strings. -/
def cmpStrings (s1 s2 : List UInt8) : Int :=
  withLengths (strncasecmp (min s2.length s1.length) s1 s2) s1.length s2.length

theorem siCmpString_string (s1 s2 : List UInt8) :
    siCmpString (.string s1) (.string s2) = .ok (cmpStrings s1 s2) := by
  change (if _ then _ else _) = _
  rw [cmpStrings, withLengths]
  split <;> rfl

/-- The order of strings goes byte by byte, up to the end of the pattern. -/
theorem cmpStrings_cons {a b : UInt8} (hb : b ≠ 0) (s1 s2 : List UInt8) :
    cmpStrings (a :: s1) (b :: s2) =
      if tolower a = tolower b then cmpStrings s1 s2
      else ((tolower a).toNat : Int) - (tolower b).toNat := by
  have hmin : min (b :: s2).length (a :: s1).length = min s2.length s1.length + 1 := by
    simp [Nat.add_min_add_right]
  rw [cmpStrings, hmin, strncasecmp]
  by_cases hab : tolower a = tolower b
  · have ha : a ≠ 0 := fun ha =>
      hb (tolower_eq_zero.1 (hab.symm.trans (tolower_eq_zero.2 ha)))
    simp [hab, ha, cmpStrings, withLengths]
  · have hne : ((tolower a).toNat : Int) - (tolower b).toNat ≠ 0 := by
      intro h
      exact hab (UInt8.toNat_inj.1 (by omega))
    rw [if_pos hab, if_neg hab, withLengths_of_ne hne]

theorem tolower_eq_max {b : UInt8} : tolower b = 255 ↔ b = 255 := by
  constructor
  · intro h
    unfold tolower at h
    split at h
    · rename_i hrange
      have hhigh : b.toNat ≤ 90 := UInt8.le_iff_toNat_le.1 hrange.2
      have hmax := congrArg UInt8.toNat h
      rw [UInt8.toNat_add] at hmax
      have h32 : (32 : UInt8).toNat = 32 := rfl
      have h255 : (255 : UInt8).toNat = 255 := rfl
      omega
    · exact h
  · rintro rfl
    rfl

/-- The string begins with `p`, in any case of letters. -/
def BeginsWith (p s : List UInt8) : Prop :=
  p.map tolower <+: s.map tolower

/-- The range of a prefix has the strings that begin with it, but not those that go on behind a
byte `0xff`. -/
theorem inPrefixRange_iff {p s : List UInt8} (hp : (0 : UInt8) ∉ p) :
    (0 ≤ cmpStrings s p ∧ cmpStrings s (p ++ [255]) ≤ 0) ↔
      BeginsWith p s ∧ ∀ b rest, s.drop p.length ≠ 255 :: b :: rest := by
  induction p generalizing s with
  | nil =>
      cases s with
      | nil => simp [BeginsWith, cmpStrings, strncasecmp, withLengths]
      | cons a s =>
          -- The prefix is used up: what is left is compared with the single byte 255.
          have hlow : 0 ≤ cmpStrings (a :: s) [] := by
            simp [cmpStrings, strncasecmp, withLengths]
          have hhigh : cmpStrings (a :: s) [255] ≤ 0 ↔ ¬(a = 255 ∧ s ≠ []) := by
            rw [cmpStrings_cons (by decide)]
            by_cases ha : a = 255
            · subst ha
              cases s with
              | nil => simp [cmpStrings, strncasecmp, withLengths]
              | cons b s => simp [cmpStrings, strncasecmp, withLengths]
            · have hne : tolower a ≠ tolower 255 := fun h => ha (tolower_eq_max.1 h)
              have hlt := (tolower a).toNat_lt
              have h255 : (tolower 255).toNat = 255 := rfl
              simp only [if_neg hne, ha, false_and, not_false_eq_true, iff_true]
              omega
          have hdrop : (¬(a = 255 ∧ s ≠ [])) ↔ ∀ b rest, (a :: s) ≠ 255 :: b :: rest := by
            cases s <;> simp
          simp only [List.nil_append, hlow, true_and, hhigh, hdrop, List.length_nil, List.drop_zero,
            BeginsWith, List.map_nil, List.nil_prefix]
  | cons b p ih =>
      rw [List.mem_cons, not_or] at hp
      have hb : b ≠ 0 := fun h => hp.1 h.symm
      cases s with
      | nil =>
          have hlow : ¬0 ≤ cmpStrings [] (b :: p) := by
            simp [cmpStrings, strncasecmp, withLengths]
          simp [hlow, BeginsWith]
      | cons a s =>
          rw [List.cons_append, cmpStrings_cons hb, cmpStrings_cons hb]
          by_cases hab : tolower a = tolower b
          · simpa [hab, BeginsWith] using ih hp.2
          · have hne : ((tolower a).toNat : Int) ≠ (tolower b).toNat := fun h =>
              hab (UInt8.toNat_inj.1 (by omega))
            have hba : tolower b ≠ tolower a := fun h => hab h.symm
            simp only [if_neg hab, BeginsWith, List.map_cons, List.cons_prefix_cons, hba, false_and,
              iff_false]
            omega

/-! ## What predicates denote -/

/-- A comparison of the value of the column with a constant; it is false for a NULL. -/
def ComparesTo (f : SIKeyCmpFunc) (v w : SIValue) (P : Int → Prop) : Prop :=
  v ≠ .null ∧ ∃ c, f v w = .ok c ∧ P c

/-- What a predicate of the grammar says of the value of its column, where `f` is the order of the
column.  A pattern matches its own text, or, with `%` at the end, what begins with it. -/
def Denotes (f : SIKeyCmpFunc) (v : SIValue) (pn : PredicateNode) : Prop :=
  match pn.op, pn.operand with
  | .EQ, .val w => ComparesTo f v w (· = 0)
  | .NE, .val w => ComparesTo f v w (· ≠ 0)
  | .GT, .val w => ComparesTo f v w (0 < ·)
  | .GE, .val w => ComparesTo f v w (0 ≤ ·)
  | .LT, .val w => ComparesTo f v w (· < 0)
  | .LE, .val w => ComparesTo f v w (· ≤ 0)
  | .IN, .lst ws => ∃ w ∈ ws, ComparesTo f v w (· = 0)
  | .LIKE, .val (.string s) =>
      if s.getLast? = some 37 then ∃ str, v = .string str ∧ BeginsWith s.dropLast str
      else ComparesTo f v (.string s) (· = 0)
  | .IS, .val .null => v = .null
  | _, _ => False

/-- The property is the column with the ordinal `i`. -/
def OnColumn (spec : Option SISpec) (prop : Property) (i : Nat) : Prop :=
  match prop.name, spec with
  | none, _ => prop.id = i + 1
  | some name, some spec =>
      ∃ h : i < spec.properties.length, spec.properties[i].hasName name = true ∧
        ∀ j (hj : j < i), ¬spec.properties[j].hasName name = true
  | some _, none => False

/-- The column may have values of type `t`. -/
def ColumnHas (spec : Option SISpec) (i : Nat) (t : SIType) : Prop :=
  match spec with
  | some spec => spec.types[i]? = some t
  | none => True

/-- A pattern with `%` at its end. -/
def PrefixPattern (pn : PredicateNode) : Prop :=
  pn.op = .LIKE ∧ ∃ s, pn.operand = .val (.string s) ∧ s.getLast? = some 37

theorem propIdOf_iff {spec : Option SISpec} {prop : Property} (h : prop.Built) (i : Nat) :
    propIdOf spec prop = i ↔ OnColumn spec prop i := by
  obtain ⟨name, id⟩ := prop
  cases name with
  | none =>
      simp only [propIdOf, OnColumn]
      omega
  | some name =>
      cases spec with
      | none =>
          obtain rfl : id = 0 := h (by simp)
          simp only [propIdOf, OnColumn, iff_false]
          omega
      | some spec =>
          have hcolumn : OnColumn (some spec) { name := some name, id := id } i ↔
              (spec.properties.findIdx? fun p => p.hasName name) = some i := by
            simp only [OnColumn, List.findIdx?_eq_some_iff_getElem]
          rw [hcolumn]
          simp only [propIdOf, siSpecPropertyByName]
          cases hfind : spec.properties.findIdx? fun p => p.hasName name with
          | none => simp
          | some j => simp

section Leaf

variable {t : SIType} {f : SIKeyCmpFunc} {v w : SIValue}

/-- A NULL is behind every constant. -/
theorem cmp_null (hf : cmpFuncOf t = .ok f) (hw : w.isNull = false) : f .null w = .ok 1 := by
  obtain ⟨values, hvalues⟩ := cmpFunc_special hf
  simp [hvalues, cmpSpecial, hw]

theorem cmp_negInf (hf : cmpFuncOf t = .ok f) (v : SIValue) : f v .negInf = .ok 1 := by
  obtain ⟨values, hvalues⟩ := cmpFunc_special hf
  cases hv : v.isNull <;> simp [hvalues, cmpSpecial, hv]

theorem cmp_inf (hf : cmpFuncOf t = .ok f) (hv : v.type = t) : f v .inf = .ok (-1) := by
  obtain ⟨values, hvalues⟩ := cmpFunc_special hf
  have ht : ColumnType t := by
    cases t with
    | null => cases hf
    | inf => cases hf
    | negInf => cases hf
    | _ => decide
  obtain ⟨_, hnull, hinf, hneg⟩ := rank_of_type ht hv
  simp [hvalues, cmpSpecial, hnull, hinf, hneg]

/-- A constant that is equal to a value is no NULL's equal. -/
theorem eq_zero_iff_comparesTo (hf : cmpFuncOf t = .ok f) (hw : w.isNull = false) :
    f v w = .ok 0 ↔ ComparesTo f v w (· = 0) := by
  constructor
  · intro h
    refine ⟨?_, 0, h, rfl⟩
    rintro rfl
    cases (cmp_null hf hw).symm.trans h
  · rintro ⟨_, c, hc, rfl⟩
    exact hc

/-- `>` and `>=` are ranges up to +INF, which leaves NULL out. -/
theorem rng_inf_iff (hf : cmpFuncOf t = .ok f) (hv : v = .null ∨ v.type = t) (minExclusive : Bool) :
    PredHolds f v (.rng w .inf minExclusive false) ↔
      ComparesTo f v w fun c => ¬(c < 0 ∨ (c = 0 ∧ minExclusive = true)) := by
  rcases hv with rfl | hv
  · have hnull := cmp_null hf SIValue.isNull_inf
    simp [PredHolds, ComparesTo, hnull]
  · have hinf := cmp_inf hf hv
    have hne : v ≠ .null := by
      rintro rfl
      cases hv
      cases hf
    simp [PredHolds, ComparesTo, hinf, hne]

/-- `<` and `<=` are ranges from -INF. -/
theorem rng_negInf_iff (hf : cmpFuncOf t = .ok f) (hw : w.isNull = false) (maxExclusive : Bool) :
    PredHolds f v (.rng .negInf w false maxExclusive) ↔
      ComparesTo f v w fun c => ¬(0 < c ∨ (c = 0 ∧ maxExclusive = true)) := by
  have hneg := cmp_negInf hf v
  by_cases hne : v = .null
  · have hnull := cmp_null hf hw
    simp [PredHolds, ComparesTo, hne, hnull]
  · simp [PredHolds, ComparesTo, hneg, hne]

end Leaf

/-! ## Nodes of predicates -/

section Nodes

variable {pn : PredicateNode} {t : SIType} {f : SIKeyCmpFunc} {v w : SIValue}

theorem comparesTo_congr {P Q : Int → Prop} (h : ∀ c, P c ↔ Q c) :
    ComparesTo f v w P ↔ ComparesTo f v w Q := by
  simp only [ComparesTo, h]

theorem isNull_of_rank (h : w.rank = 1) : w.isNull = false := by
  cases w with
  | null => cases h
  | _ => rfl

/-- In a column of another type, a comparison with a string faults. -/
theorem cmp_string_faults (hf : cmpFuncOf t = .ok f) (hv : v.type = t) (ht : t ≠ .string)
    (s : List UInt8) (c : Int) : f v (.string s) ≠ .ok c := by
  subst hv
  intro h
  cases v with
  | string str => exact ht rfl
  | null => cases hf
  | inf => cases hf
  | negInf => cases hf
  | _ =>
      cases hf
      cases h

/-- The range of a pattern accepts nothing in a column of another type. -/
theorem like_rejects (hf : cmpFuncOf t = .ok f) (hv : v = .null ∨ v.type = t) (ht : t ≠ .string)
    (min max : List UInt8) :
    ¬PredHolds f v (.rng (.string min) (.string max) false false) := by
  rintro ⟨⟨c, hc, _⟩, d, hd, hle⟩
  rcases hv with rfl | hv
  · have hnull : f .null (.string max) = .ok 1 := cmp_null hf rfl
    obtain rfl := Except.ok.inj (hnull.symm.trans hd)
    exact hle (Or.inl (by decide))
  · exact cmp_string_faults hf hv ht min c hc

theorem rng_string_iff {s min max : List UInt8} :
    PredHolds siCmpString (.string s) (.rng (.string min) (.string max) false false) ↔
      0 ≤ cmpStrings s min ∧ cmpStrings s max ≤ 0 := by
  simp [PredHolds, siCmpString_string]

/-- The node of a predicate with a supported operator accepts what the predicate denotes, but for
patterns with `%` on a column of strings. -/
theorem toQueryNode_spec (h : pn.Built) (hne : pn.op ≠ .NE) :
    ∃ p, toQueryNode pn = .ok (.pred false { propId := 0, t := p }) ∧
      ∀ t f v, cmpFuncOf t = .ok f → v = .null ∨ v.type = t → ¬(PrefixPattern pn ∧ t = .string) →
        (PredHolds f v p ↔ Denotes f v pn) := by
  cases h with
  | @comparison prop op w hop hw =>
      have hnull := isNull_of_rank hw
      have hops : op = .EQ ∨ op = .NE ∨ op = .GT ∨ op = .GE ∨ op = .LT ∨ op = .LE := by
        simpa [comparisonOps] using hop
      -- A strict comparison is a range without its end, with -INF or INF at the other one.
      rcases hops with rfl | rfl | rfl | rfl | rfl | rfl
      · exact ⟨_, rfl, fun t f v hf _ _ => eq_zero_iff_comparesTo hf hnull⟩
      · exact absurd rfl hne
      · refine ⟨_, rfl, fun t f v hf hv _ => (rng_inf_iff hf hv true).trans ?_⟩
        exact comparesTo_congr fun c => by
          simp only [and_true]
          omega
      · refine ⟨_, rfl, fun t f v hf hv _ => (rng_inf_iff hf hv false).trans ?_⟩
        exact comparesTo_congr fun c => by simp
      · refine ⟨_, rfl, fun t f v hf _ _ => (rng_negInf_iff hf hnull true).trans ?_⟩
        exact comparesTo_congr fun c => by
          simp only [and_true]
          omega
      · refine ⟨_, rfl, fun t f v hf _ _ => (rng_negInf_iff hf hnull false).trans ?_⟩
        exact comparesTo_congr fun c => by simp
  | @like prop s =>
      by_cases hlast : s.bytes.getLast? = some 37
      · refine ⟨.rng (.string s.bytes.dropLast) (.string (s.bytes.dropLast ++ [255])) false false,
          ?_, fun t f v hf hv hnot => ?_⟩
        · change likeQueryNode (.string s.bytes) = _
          rw [likeQueryNode, SIValue.stringval, ok_bind, if_pos hlast]
          rfl
        · -- A pattern on a column of another type denotes nothing, and its range is empty.
          have ht : t ≠ .string := fun ht => hnot ⟨⟨rfl, _, rfl, hlast⟩, ht⟩
          have hreject := like_rejects hf hv ht s.bytes.dropLast (s.bytes.dropLast ++ [255])
          refine iff_of_false hreject ?_
          simp only [Denotes, if_pos hlast]
          rintro ⟨str, rfl, _⟩
          rcases hv with hv | hv
          · cases hv
          · exact ht hv.symm
      · refine ⟨.eq (.string s.bytes), ?_, fun t f v hf _ _ => ?_⟩
        · change likeQueryNode (.string s.bytes) = _
          rw [likeQueryNode, SIValue.stringval, ok_bind, if_neg hlast]
          rfl
        · simp only [Denotes, if_neg hlast]
          exact eq_zero_iff_comparesTo hf rfl
  | @isNull prop =>
      refine ⟨_, rfl, fun t f v _ _ _ => ?_⟩
      cases v <;> simp [PredHolds, Denotes, SIValue.isNull, SIValue.type]
  | @inList prop ws hws =>
      refine ⟨_, rfl, fun t f v hf _ _ => ?_⟩
      change (∃ w ∈ ws, f v w = .ok 0) ↔ ∃ w ∈ ws, ComparesTo f v w (· = 0)
      exact exists_congr fun w => and_congr_right fun hw =>
        eq_zero_iff_comparesTo hf (isNull_of_rank (hws w hw))

/-- A pattern with `%` on a column of strings: what goes on behind `0xff` is left out. -/
theorem prefixPattern_differs (h : pn.Built) (hp : PrefixPattern pn) {p : SIPredicateType}
    (hq : toQueryNode pn = .ok (.pred false { propId := 0, t := p })) :
    ∃ s, ¬(PredHolds siCmpString (.string s) p ↔ Denotes siCmpString (.string s) pn) := by
  obtain ⟨hop, str, hoperand, hlast⟩ := hp
  cases h with
  | comparison hmem _ =>
      obtain rfl : _ = Terminal.LIKE := hop
      exact absurd hmem (by decide)
  | isNull => cases hop
  | inList _ => cases hop
  | @like prop s =>
      obtain rfl : s.bytes = str := by simpa using hoperand
      have hnoNul : (0 : UInt8) ∉ s.bytes.dropLast := fun hmem =>
        s.noNul (List.mem_of_mem_dropLast hmem)
      have hnode : likeQueryNode (.string s.bytes) = .ok (.pred false { propId := 0, t := p }) := hq
      rw [likeQueryNode, SIValue.stringval, ok_bind, if_pos hlast] at hnode
      cases hnode
      refine ⟨s.bytes.dropLast ++ [255, 97], fun hiff => ?_⟩
      have hdenotes : Denotes siCmpString (.string (s.bytes.dropLast ++ [255, 97]))
          { prop := prop, op := .LIKE, operand := .val (.string s.bytes) } := by
        simp only [Denotes, if_pos hlast]
        exact ⟨_, rfl, by simp [BeginsWith]⟩
      have hin := (inPrefixRange_iff hnoNul).1 (rng_string_iff.1 (hiff.2 hdenotes))
      exact hin.2 97 [] (by simp)

end Nodes

/-! ## Trees -/

section Trees

variable {spec : Option SISpec} {P Q : PredicateNode → SIPredicate → Prop}

/-- The query tree has the shape of the parse tree and no NULL, and `P` relates the leaves. -/
def Translated (P : PredicateNode → SIPredicate → Prop) : ParseNode → SIQueryNode → Prop
  | .pred pn, .pred passthru p => passthru = false ∧ P pn p
  | .cond left op right, .logic passthru logicOp l r =>
      passthru = false ∧ op = logicOp.terminal ∧ Translated P left l ∧ Translated P right r
  | _, _ => False

theorem Translated.mono {n : ParseNode} {q : SIQueryNode}
    (h : Translated P n q) (hmono : ∀ pn ∈ n.preds, ∀ p, P pn p → Q pn p) : Translated Q n q := by
  induction n generalizing q with
  | pred pn =>
      cases q with
      | pred passthru p => exact ⟨h.1, hmono pn (List.mem_singleton_self pn) p h.2⟩
      | null => exact h.elim
      | logic _ _ _ _ => exact h.elim
  | cond left op right ihl ihr =>
      cases q with
      | logic passthru logicOp l r =>
          obtain ⟨hpass, hop, hl, hr⟩ := h
          exact ⟨hpass, hop, ihl hl fun pn hpn => hmono pn (List.mem_append_left _ hpn),
            ihr hr fun pn hpn => hmono pn (List.mem_append_right _ hpn)⟩
      | null => exact h.elim
      | pred _ _ => exact h.elim

/-- Every predicate has its leaf. -/
theorem Translated.exists_leaf {n : ParseNode} {q : SIQueryNode} (h : Translated P n q)
    (h' : Translated Q n q) {pn : PredicateNode} (hpn : pn ∈ n.preds) : ∃ p, P pn p ∧ Q pn p := by
  induction n generalizing q with
  | pred pn' =>
      obtain rfl := List.mem_singleton.1 hpn
      cases q with
      | pred passthru p => exact ⟨p, h.2, h'.2⟩
      | null => exact h.elim
      | logic _ _ _ _ => exact h.elim
  | cond left op right ihl ihr =>
      cases q with
      | logic passthru logicOp l r =>
          rcases List.mem_append.1 hpn with hpn | hpn
          · exact ihl h.2.2.1 h'.2.2.1 hpn
          · exact ihr h.2.2.2 h'.2.2.2 hpn
      | null => exact h.elim
      | pred _ _ => exact h.elim

/-- The leaf of a predicate, as `traverseNode` makes it. -/
def LeafOf (spec : Option SISpec) (pn : PredicateNode) (p : SIPredicate) : Prop :=
  toQueryNode pn = .ok (.pred false { propId := 0, t := p.t }) ∧ p.propId = propIdOf spec pn.prop

/-- Where all operators are supported, every predicate gets a leaf, and is counted. -/
theorem traverseNode_ok (spec : Option SISpec) {n : ParseNode} (h : n.Built)
    (hne : ∀ pn ∈ n.preds, pn.op ≠ .NE)
    (numPredicates : Nat) :
    ∃ root, traverseNode spec n numPredicates = .ok (root, numPredicates + n.preds.length) ∧
      Translated (LeafOf spec) n root := by
  induction n generalizing numPredicates with
  | pred pn =>
      obtain ⟨p, hp, _⟩ := toQueryNode_spec h.1 (hne pn (List.mem_singleton_self pn))
      refine ⟨.pred false { propId := propIdOf spec pn.prop, t := p }, ?_, rfl, hp, rfl⟩
      rw [traverseNode, hp]
      rfl
  | cond left op right ihl ihr =>
      obtain ⟨hop, hl, hr⟩ := h
      obtain ⟨l, hleft, htl⟩ := ihl hl (fun pn hpn => hne pn (List.mem_append_left _ hpn))
        numPredicates
      obtain ⟨r, hright, htr⟩ := ihr hr (fun pn hpn => hne pn (List.mem_append_right _ hpn))
        (numPredicates + left.preds.length)
      refine ⟨siQueryNewLogicNode l (if op = .OR then .opOr else .opAnd) r, ?_, rfl, ?_, htl, htr⟩
      · rw [traverseNode, hleft, ok_bind, hright, ok_bind, ParseNode.preds, List.length_append,
          Nat.add_assoc]
      · rcases hop with rfl | rfl <;> rfl

/-- A `!=` has no node: `traverseNode` stores the column through a NULL pointer. -/
theorem traverseNode_ne {n : ParseNode} (h : n.Built) (hne : ∃ pn ∈ n.preds, pn.op = .NE)
    (numPredicates : Nat) : traverseNode spec n numPredicates = .error .null := by
  induction n generalizing numPredicates with
  | pred pn =>
      obtain ⟨pn', hpn, hop⟩ := hne
      obtain rfl := List.mem_singleton.1 hpn
      have hnode : toQueryNode pn' = .ok .null := by rw [toQueryNode, hop]
      rw [traverseNode, hnode]
      rfl
  | cond left op right ihl ihr =>
      obtain ⟨_, hl, hr⟩ := h
      by_cases hleft : ∃ pn ∈ left.preds, pn.op = .NE
      · rw [traverseNode, ihl hl hleft, error_bind]
      · obtain ⟨pn, hpn, hop⟩ := hne
        have hright : ∃ pn ∈ right.preds, pn.op = .NE := by
          rcases List.mem_append.1 hpn with hpn | hpn
          · exact absurd ⟨pn, hpn, hop⟩ hleft
          · exact ⟨pn, hpn, hop⟩
        have hall : ∀ pn ∈ left.preds, pn.op ≠ .NE := fun pn hpn hop => hleft ⟨pn, hpn, hop⟩
        obtain ⟨l, hl', _⟩ := traverseNode_ok spec hl hall numPredicates
        rw [traverseNode, hl', ok_bind, ihr hr hright, error_bind]

end Trees

/-! ## Translations -/

/-- The leaf is on the column of the predicate, and accepts exactly the values that the predicate
denotes. -/
structure LeafRefines (spec : Option SISpec) (pn : PredicateNode) (p : SIPredicate) : Prop where
  column : ∀ i : Nat, p.propId = i ↔ OnColumn spec pn.prop i
  accepts : ∀ i t f v, OnColumn spec pn.prop i → ColumnHas spec i t → cmpFuncOf t = .ok f →
    v = .null ∨ v.type = t → (PredHolds f v p.t ↔ Denotes f v pn)

/-- The translation of a parse tree ends, with a query tree of the same shape whose leaves refine the
predicates, and with their number. -/
def TranslationRefines (spec : Option SISpec) (n : ParseNode) : Prop :=
  ∃ root numPredicates, traverseNode spec n 0 = .ok (root, numPredicates) ∧
    numPredicates = n.preds.length ∧ Translated (LeafRefines spec) n root

/-- There is no `!=`, and no pattern with `%` on a column of strings. -/
def Translatable (spec : Option SISpec) (n : ParseNode) : Prop :=
  ∀ pn ∈ n.preds, pn.op ≠ .NE ∧
    (PrefixPattern pn → ∀ i, OnColumn spec pn.prop i → ¬ColumnHas spec i .string)

section Translation

variable {spec : Option SISpec} {n : ParseNode}

theorem ParseNode.Built.of_mem (h : n.Built) {pn : PredicateNode} (hpn : pn ∈ n.preds) :
    pn.Built ∧ pn.prop.Built := by
  induction n with
  | pred pn' =>
      obtain rfl := List.mem_singleton.1 hpn
      exact h
  | cond left op right ihl ihr =>
      rcases List.mem_append.1 hpn with hpn | hpn
      · exact ihl h.2.1 hpn
      · exact ihr h.2.2 hpn

theorem leafRefines_of_leafOf {pn : PredicateNode} {p : SIPredicate} (h : pn.Built)
    (hprop : pn.prop.Built) (hne : pn.op ≠ .NE)
    (hlike : PrefixPattern pn → ∀ i, OnColumn spec pn.prop i → ¬ColumnHas spec i .string)
    (hleaf : LeafOf spec pn p) : LeafRefines spec pn p := by
  obtain ⟨hnode, hpropId⟩ := hleaf
  obtain ⟨p', hp', haccepts⟩ := toQueryNode_spec h hne
  obtain rfl : p.t = p' := by simpa [hnode] using hp'
  constructor
  · intro i
    rw [hpropId]
    exact propIdOf_iff hprop i
  · intro i t f v hcolumn hhas hf hv
    refine haccepts t f v hf hv ?_
    rintro ⟨hpattern, rfl⟩
    exact hlike hpattern i hcolumn hhas

/-- The translation refines a tree of the grammar exactly when it is translatable. -/
theorem translationRefines_iff (h : n.Built) :
    TranslationRefines spec n ↔ Translatable spec n := by
  constructor
  · rintro ⟨root, numPredicates, hrun, _, hrefines⟩
    have hne : ∀ pn ∈ n.preds, pn.op ≠ .NE := by
      intro pn hpn hop
      cases hrun.symm.trans (traverseNode_ne h ⟨pn, hpn, hop⟩ 0)
    obtain ⟨root', hrun', hleaves⟩ := traverseNode_ok spec h hne 0
    obtain ⟨rfl, _⟩ := Prod.mk.inj (Except.ok.inj (hrun.symm.trans hrun'))
    refine fun pn hpn => ⟨hne pn hpn, fun hpattern i hcolumn hhas => ?_⟩
    obtain ⟨p, hp, hleaf⟩ := hrefines.exists_leaf hleaves hpn
    obtain ⟨s, hs⟩ := prefixPattern_differs (h.of_mem hpn).1 hpattern hleaf.1
    exact hs (hp.accepts i .string siCmpString (.string s) hcolumn hhas rfl (Or.inr rfl))
  · intro htrans
    obtain ⟨root, hrun, hleaves⟩ :=
      traverseNode_ok spec h (fun pn hpn => (htrans pn hpn).1) 0
    refine ⟨root, _, hrun, Nat.zero_add _, hleaves.mono fun pn hpn p hleaf => ?_⟩
    obtain ⟨hbuilt, hprop⟩ := h.of_mem hpn
    exact leafRefines_of_leafOf hbuilt hprop (htrans pn hpn).1 (htrans pn hpn).2 hleaf

/-- What `ParseQuery` returns is a tree that the grammar builds. -/
theorem built_of_verdict {now : Int64} {toks : List Lexeme}
    (h : parserTables.Verdict (parserActions now) ([], toks) (some (.yy8 n)))
    (htoks : ∀ k ∈ toks, LexemeOk k) : n.Built := by
  generalize hc : (([], toks) : List YYStackEntry × List Lexeme) = c at h
  generalize hv : (some (YYMINORTYPE.yy8 n)) = v at h
  induction h generalizing toks with
  | error _ _ => cases hv
  | @accept c e hsteps hact =>
      subst hc
      obtain ⟨ks, hks, hvalid⟩ := hsteps.valid parserTables_checked valid_nil rfl
      rw [List.append_nil] at hks
      have hread : toks = ks := hks
      obtain ⟨e', he, _, heval⟩ := hvalid.accept parserTables_checked hact
      obtain rfl := (List.cons.inj he).1
      rw [← Option.some.inj hv, ← hread] at heval
      exact built_of_evaluates heval htoks
  | @full c ks v hover _ ih =>
      subst hc
      obtain ⟨ls, k, _, hread, _⟩ := read_of_overflows hover
      refine ih (fun l hl => htoks l ?_) rfl hv
      rw [hread]
      exact List.mem_append_right _ (List.mem_cons_of_mem _ hl)

theorem built_of_parseQuery {now : Int64} {strtod : List UInt8 → Strtod} {tok : Token}
    {q : List UInt8} {msg : Option CString}
    (h : parseQuery now strtod tok q = .ok (some n, msg)) : n.Built := by
  have hverdict : parserTables.Verdict (parserActions now) ([], yylex strtod tok q)
      (some (.yy8 n)) :=
    parseQuery_verdict h
  exact built_of_verdict hverdict fun k hk => (yylex_ok hk).1

/-- `SI_ParseQuery` returns 0, or a query whose tree refines the parse tree. -/
def QueryRefines (now : Int64) (strtod : List UInt8 → Strtod) (tok : Token) (query : SIQuery)
    (q : List UInt8) (spec : Option SISpec) : Prop :=
  (∃ query' msg, siParseQuery now strtod tok query q spec = .ok (false, query', msg)) ∨
    ∃ n query' msg, parseQuery now strtod tok q = .ok (some n, msg) ∧
      siParseQuery now strtod tok query q spec = .ok (true, query', msg) ∧
      query'.numPredicates = n.preds.length ∧ Translated (LeafRefines spec) n query'.root

theorem siParseQuery_refines_iff (now : Int64) (strtod : List UInt8 → Strtod) (tok : Token)
    (query : SIQuery) (q : List UInt8) (spec : Option SISpec) :
    QueryRefines now strtod tok query q spec ↔
      ¬ListTooLong now (yylex strtod tok q) ∧
        ∀ n msg, parseQuery now strtod tok q = .ok (some n, msg) → Translatable spec n := by
  rcases parseQuery_spec now strtod tok q with ⟨root, msg, hparse, hverdict⟩ | ⟨hparse, hlong⟩
  swap
  · -- The parser faults.
    have hrun : siParseQuery now strtod tok query q spec = .error .bounds := by
      rw [siParseQuery, hparse]
      rfl
    refine iff_of_false ?_ fun h => h.1 hlong
    rintro (⟨_, _, h⟩ | ⟨_, _, _, h, _⟩)
    · cases hrun.symm.trans h
    · cases hparse.symm.trans h
  rw [and_iff_right fun hlong : ListTooLong now (yylex strtod tok q) => hlong.not_verdict hverdict]
  cases root with
  | none =>
      -- Without a tree there is nothing to translate, and the parse error is returned.
      have hrun : siParseQuery now strtod tok query q spec =
          .ok (false, { query with numPredicates := 0 }, msg) := by
        rw [siParseQuery, hparse]
        rfl
      refine iff_of_true (Or.inl ⟨_, _, hrun⟩) fun n msg' h => ?_
      cases hparse.symm.trans h
  | some n =>
      have hrun : siParseQuery now strtod tok query q spec =
          (traverseNode spec n 0 >>= fun res =>
            .ok (true, { root := res.1, numPredicates := res.2 }, msg)) := by
        rw [siParseQuery, hparse]
        rfl
      have htrans : (∀ n' msg', parseQuery now strtod tok q = .ok (some n', msg') →
          Translatable spec n') ↔ TranslationRefines spec n := by
        rw [translationRefines_iff (built_of_parseQuery hparse)]
        constructor
        · exact fun h => h n msg hparse
        · intro h n' msg' hn'
          obtain ⟨heq, _⟩ := Prod.mk.inj (Except.ok.inj (hparse.symm.trans hn'))
          obtain rfl := Option.some.inj heq
          exact h
      rw [htrans]
      constructor
      · rintro (⟨query', msg', hfail⟩ | ⟨n', query', msg', hn', hok, hcount, htree⟩)
        · rw [hrun, bind_eq_ok] at hfail
          obtain ⟨_, _, heq⟩ := hfail
          cases heq
        · obtain ⟨heq, _⟩ := Prod.mk.inj (Except.ok.inj (hparse.symm.trans hn'))
          obtain rfl := Option.some.inj heq
          rw [hrun, bind_eq_ok] at hok
          obtain ⟨res, hres, heq⟩ := hok
          cases heq
          exact ⟨res.1, res.2, hres, hcount, htree⟩
      · rintro ⟨root, numPredicates, hres, hcount, htree⟩
        refine Or.inr ⟨n, { root := root, numPredicates := numPredicates }, msg, hparse, ?_, hcount,
          htree⟩
        rw [hrun, hres]
        rfl

/-- A single condition is derived from `cond`. -/
theorem Condition.evaluates {now : Int64} (c : Condition now) :
    Evaluates parserGrammar (parserActions now) [.n .cond] c.toks [.yy8 c.tree] := by
  obtain ⟨r, hr, xs, hxs, hsem⟩ := c.atomic
  have hcond := Evaluates.rule hxs hsem .nil
  rwa [(atom_symbols hr).1, List.append_nil] at hcond

/-- A token in a query, where `s` is the last name or string read. -/
def textLexeme (major : Terminal) (s yytext : String) : Lexeme where
  major := major
  minor := .strval (cString (ascii s))
  yytext := cString (ascii yytext)

/-- `name LIKE 'al'` -/
def nameLike (now : Int64) : Condition now where
  toks := [textLexeme .IDENT "name" "name", textLexeme .LIKE "name" "LIKE",
    textLexeme .STRING "al" "'al'"]
  tree := newPredicateNode { name := some (cString (ascii "name")), id := 0 } .LIKE
    (.string (ascii "al"))
  atomic :=
    have hprop : Evaluates parserGrammar (parserActions now) (parserGrammar.rhs 24)
        [textLexeme .IDENT "name" "name"] [.yy0 (.strval (cString (ascii "name")))] :=
      .term (k := textLexeme .IDENT "name" "name") .nil
    have hpattern : Evaluates parserGrammar (parserActions now) [.t .LIKE, .t .STRING]
        [textLexeme .LIKE "name" "LIKE", textLexeme .STRING "al" "'al'"]
        [.yy0 (.strval (cString (ascii "name"))), .yy0 (.strval (cString (ascii "al")))] :=
      .term (k := textLexeme .LIKE "name" "LIKE") (.term (k := textLexeme .STRING "al" "'al'") .nil)
    ⟨8, by decide, _, .rule hprop rfl hpattern, rfl⟩

/-- An index on an age and a name. -/
def ageNameSpec : SISpec where
  properties := [
    { type := .int64, flags := 0, name := some (cString (ascii "age")) },
    { type := .string, flags := 0, name := some (cString (ascii "name")) }]
  flags := siIndexNamed

/-- An index of one column of integers. -/
def int64Spec : SISpec where
  properties := [{ type := .int64, flags := 0, name := none }]
  flags := 0

end Translation

end Secondary
