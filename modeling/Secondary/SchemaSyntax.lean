import Secondary.Schema

/-!
# SchemaSyntax — the documented form of IDX.CREATE

The documentation gives IDX.CREATE the form `{index_name} [TYPE HASH] [UNIQUE] SCHEMA` and, behind
it, a type for each column, with the name of the column in front where the index has names.
`SI_ParseSpec` finds the options by looking for their keywords among all arguments, also where the
user's names are.
-/

namespace Secondary

open Lib

/-! ## Arguments in any case -/

/-- The word in lower case. -/
def lowered (word : List UInt8) : List UInt8 :=
  word.map tolower

theorem strcasecmp_lowered {as as' : List UInt8} (h : lowered as = lowered as') (bs : List UInt8) :
    strcasecmp as bs = strcasecmp as' bs := by
  induction as generalizing as' bs with
  | nil =>
      obtain rfl : as' = [] := by simpa [lowered, eq_comm] using h
      rfl
  | cons a as ih =>
      cases as' with
      | nil => simp [lowered] at h
      | cons a' as' =>
          simp only [lowered, List.map_cons, List.cons.injEq] at h
          -- NUL has no other case.
          have hzero : a = 0 ↔ a' = 0 := by rw [← tolower_eq_zero, h.1, tolower_eq_zero]
          cases bs with
          | nil => simp [strcasecmp, h.1]
          | cons b bs => simp [strcasecmp, h.1, hzero, ih h.2 bs]

theorem strncasecmp_lowered {as as' : List UInt8} (h : lowered as = lowered as') (n : Nat)
    (bs : List UInt8) : strncasecmp n as bs = strncasecmp n as' bs := by
  induction as generalizing as' bs n with
  | nil =>
      obtain rfl : as' = [] := by simpa [lowered, eq_comm] using h
      rfl
  | cons a as ih =>
      cases as' with
      | nil => simp [lowered] at h
      | cons a' as' =>
          simp only [lowered, List.map_cons, List.cons.injEq] at h
          have hzero : a = 0 ↔ a' = 0 := by rw [← tolower_eq_zero, h.1, tolower_eq_zero]
          cases n with
          | zero => simp [strncasecmp]
          | succ n =>
              cases bs with
              | nil => simp [strncasecmp]
              | cons b bs => simp [strncasecmp, h.1, hzero, ih h.2 n bs]

/-! ## Looking for an argument -/

section Search

variable {arg : List UInt8} {offset : Nat}

/-- The first argument from `offset` on that is the one looked for. -/
theorem rmUtilArgExists_found (before : List RedisModuleString) {after : List RedisModuleString}
    {a : RedisModuleString} (hoffset : offset ≤ before.length)
    (hbefore : ∀ b ∈ before.drop offset, strcasecmp b arg ≠ 0) (ha : strcasecmp a arg = 0) :
    rmUtilArgExists arg (before ++ a :: after) offset = before.length := by
  have hfind : ((before ++ a :: after).drop offset).findIdx?
      (fun carg => decide (strcasecmp carg arg = 0)) = some (before.drop offset).length := by
    rw [List.drop_append_of_le_length hoffset, List.findIdx?_append,
      List.findIdx?_eq_none_iff.2 fun b hb => by simpa using hbefore b hb]
    simp [List.findIdx?_cons, ha]
  rw [rmUtilArgExists, hfind, List.length_drop]
  simp only
  omega

theorem rmUtilArgExists_none {argv : List RedisModuleString}
    (h : ∀ b ∈ argv.drop offset, strcasecmp b arg ≠ 0) : rmUtilArgExists arg argv offset = 0 := by
  rw [rmUtilArgExists, List.findIdx?_eq_none_iff.2 fun b hb => by simpa using h b hb]

/-- An argument that is there is found, where the search does not begin at the first argument. -/
theorem rmUtilArgExists_ne_zero {argv : List RedisModuleString} (hoffset : 0 < offset)
    {a : RedisModuleString} (hmem : a ∈ argv.drop offset) (ha : strcasecmp a arg = 0) :
    rmUtilArgExists arg argv offset ≠ 0 := by
  cases hfind : (argv.drop offset).findIdx? fun carg => decide (strcasecmp carg arg = 0) with
  | none =>
      have := List.findIdx?_eq_none_iff.1 hfind a hmem
      simp [ha] at this
  | some i =>
      simp only [rmUtilArgExists, hfind]
      omega

/-- What is found is the first argument that is the one looked for. -/
theorem rmUtilArgExists_spec {argv : List RedisModuleString}
    (h : rmUtilArgExists arg argv 0 ≠ 0) :
    (∃ a, argv[rmUtilArgExists arg argv 0]? = some a ∧ strcasecmp a arg = 0) ∧
      ∀ i a, argv[i]? = some a → strcasecmp a arg = 0 → rmUtilArgExists arg argv 0 ≤ i := by
  cases hfind : argv.findIdx? fun carg => decide (strcasecmp carg arg = 0) with
  | none => simp [rmUtilArgExists, hfind] at h
  | some w =>
      have hw : rmUtilArgExists arg argv 0 = w := by simp [rmUtilArgExists, hfind]
      obtain ⟨hlt, hmatch, hfirst⟩ := List.findIdx?_eq_some_iff_getElem.1 hfind
      rw [hw]
      refine ⟨⟨argv[w], List.getElem?_eq_getElem hlt, by simpa using hmatch⟩, ?_⟩
      intro i a hi ha
      by_contra hlater
      obtain ⟨hilt, rfl⟩ := List.getElem?_eq_some_iff.1 hi
      exact hfirst i (by omega) (by simpa using ha)

end Search

/-! ## The documented form -/

/-- A type of the documentation, with its word in some case. -/
structure TypeWord where
  type : SIType
  word : RedisModuleString
  spelled : ∃ w, (some w, type) ∈ siTypes.zip typeEnums ∧ lowered word = lowered w

/-- A column of the schema; the name is only written where the index has names. -/
structure ColumnText where
  name : RedisModuleString
  type : TypeWord

/-- The column as it is written. -/
def ColumnText.words (hash : Bool) (c : ColumnText) : List RedisModuleString :=
  if hash then [c.name, c.type.word] else [c.type.word]

/-- IDX.CREATE in the documented form. -/
def documentedArgs (name : RedisModuleString) (hash unique : Bool) (columns : List ColumnText) :
    List RedisModuleString :=
  ascii "IDX.CREATE" :: name :: ((if hash then [ascii "TYPE", ascii "HASH"] else []) ++
    ((if unique then [ascii "UNIQUE"] else []) ++
      ascii "SCHEMA" :: columns.flatMap (ColumnText.words hash)))

/-- What the documentation says that they mean. -/
def documentedKind (hash : Bool) : SIIndexKind :=
  if hash then .hashIndex else .abstractIndex

def documentedFlags (hash unique : Bool) : UInt32 :=
  (if unique then siIndexUnique else 0) ||| (if hash then siIndexNamed else 0)

/-- `SI_ParseSpec` reads exactly this kind, these flags and these columns. -/
def ReadAsDocumented (name : RedisModuleString) (hash unique : Bool) (columns : List ColumnText) :
    Prop :=
  ∃ spec, siParseSpec (documentedArgs name hash unique columns) =
      .ok (some (documentedKind hash, spec)) ∧
    spec.flags = documentedFlags hash unique ∧
    spec.properties.map (fun p => (p.name.map CString.bytes, p.type)) =
      columns.map fun c => (if hash then some c.name else none, c.type.type)

/-! ## Words for types -/

/-- The word is found in the table. -/
theorem TypeWord.findType (t : TypeWord) : findType t.word siTypes typeEnums = some t.type := by
  obtain ⟨type, word, w, hmem, hlow⟩ := t
  have hlen : word.length = w.length := by simpa [lowered] using congrArg List.length hlow
  have hcongr : ∀ words ts, Secondary.findType word words ts = Secondary.findType w words ts := by
    intro words
    induction words with
    | nil => simp [Secondary.findType]
    | cons entry words ih =>
        intro ts
        cases entry with
        | none => simp [Secondary.findType]
        | some entry =>
            cases ts with
            | nil => simp [Secondary.findType]
            | cons t ts => simp [Secondary.findType, hlen, strncasecmp_lowered hlow, ih ts]
  rw [hcongr]
  simp only [siTypes, typeEnums, List.zip_cons_cons, List.zip_nil_right, List.mem_cons,
    Prod.mk.injEq, Option.some.injEq, List.not_mem_nil, or_false, reduceCtorEq, false_and] at hmem
  rcases hmem with h | h | h | h | h | h | h | h <;> obtain ⟨rfl, rfl⟩ := h <;> rfl

/-- The word is no keyword. -/
theorem TypeWord.strcasecmp_ne (t : TypeWord) {keyword : List UInt8}
    (h : keyword ∈ [ascii "TYPE", ascii "UNIQUE", ascii "SCHEMA"]) :
    strcasecmp t.word keyword ≠ 0 := by
  obtain ⟨type, word, w, hmem, hlow⟩ := t
  rw [strcasecmp_lowered hlow]
  simp only [siTypes, typeEnums, List.zip_cons_cons, List.zip_nil_right, List.mem_cons,
    Prod.mk.injEq, Option.some.injEq, List.not_mem_nil, or_false, reduceCtorEq, false_and] at hmem h
  rcases h with rfl | rfl | rfl <;>
    rcases hmem with h | h | h | h | h | h | h | h <;> obtain ⟨rfl, rfl⟩ := h <;> decide

/-- The columns that stand behind SCHEMA are parsed; a name is cut at its first NUL. -/
theorem parseColumns_documented (hash : Bool) (columns : List ColumnText) :
    parseColumns hash columns.length (columns.flatMap (ColumnText.words hash)) =
      .ok (some (columns.map fun c =>
        { type := c.type.type, flags := 0, name := if hash then some (cString c.name) else none })) := by
  induction columns with
  | nil => rfl
  | cons c columns ih =>
      cases hash with
      | true =>
          simp only [if_true] at ih
          simp [parseColumns, columnName, ColumnText.words, c.type.findType, ih]
      | false =>
          simp only [Bool.false_eq_true, if_false] at ih
          simp [parseColumns, columnName, ColumnText.words, c.type.findType, ih]

/-! ## Finding the options -/

/-- No name of a column is taken for the keyword, where the columns have names. -/
def NoColumnNamed (keyword : List UInt8) (hash : Bool) (columns : List ColumnText) : Prop :=
  hash = true → ∀ c ∈ columns, strcasecmp c.name keyword ≠ 0

theorem NoColumnNamed.words {keyword : List UInt8} {hash : Bool} {columns : List ColumnText}
    (h : NoColumnNamed keyword hash columns)
    (hkeyword : keyword ∈ [ascii "TYPE", ascii "UNIQUE", ascii "SCHEMA"]) :
    ∀ b ∈ columns.flatMap (ColumnText.words hash), strcasecmp b keyword ≠ 0 := by
  intro b hb
  obtain ⟨c, hc, hb⟩ := List.mem_flatMap.1 hb
  cases hash with
  | true =>
      rcases List.mem_cons.1 hb with rfl | hb
      · exact h rfl c hc
      · obtain rfl := List.mem_singleton.1 hb
        exact c.type.strcasecmp_ne hkeyword
  | false =>
      obtain rfl := List.mem_singleton.1 hb
      exact c.type.strcasecmp_ne hkeyword

section Options

variable (name : RedisModuleString) (hash unique : Bool) (columns : List ColumnText)

/-- Where UNIQUE is found. -/
def uniquePosition (hash unique : Bool) : Nat :=
  if unique then (if hash then 4 else 2) else 0

theorem unique_documented (h : unique = false → NoColumnNamed (ascii "UNIQUE") hash columns) :
    rmUtilArgExists (ascii "UNIQUE") (documentedArgs name hash unique columns) 2 =
      uniquePosition hash unique := by
  cases unique with
  | true =>
      cases hash with
      | true =>
          exact rmUtilArgExists_found [ascii "IDX.CREATE", name, ascii "TYPE", ascii "HASH"]
            (by simp) (by simp; decide) (by decide)
      | false =>
          exact rmUtilArgExists_found [ascii "IDX.CREATE", name] (by simp) (by simp) (by decide)
  | false =>
      refine rmUtilArgExists_none ?_
      have hwords := (h rfl).words (by simp)
      intro b hb
      cases hash with
      | true =>
          simp only [documentedArgs, if_true, Bool.false_eq_true, if_false, List.nil_append,
            List.cons_append, List.drop_succ_cons, List.drop_zero, List.mem_cons] at hb
          rcases hb with rfl | rfl | rfl | hb
          · decide
          · decide
          · decide
          · exact hwords b hb
      | false =>
          simp only [documentedArgs, Bool.false_eq_true, if_false, List.nil_append,
            List.drop_succ_cons, List.drop_zero, List.mem_cons] at hb
          rcases hb with rfl | hb
          · decide
          · exact hwords b hb

/-- A column with the name UNIQUE is taken for the option. -/
theorem unique_column {c : ColumnText} (hc : c ∈ columns)
    (hname : strcasecmp c.name (ascii "UNIQUE") = 0) :
    rmUtilArgExists (ascii "UNIQUE") (documentedArgs name true unique columns) 2 ≠ 0 := by
  refine rmUtilArgExists_ne_zero (by decide) ?_ hname
  have hmem : c.name ∈ columns.flatMap (ColumnText.words true) :=
    List.mem_flatMap.2 ⟨c, hc, by simp [ColumnText.words]⟩
  simp [documentedArgs, hmem]

/-- The kind is the documented one, unless the index itself has the name TYPE. -/
theorem parseKind_documented :
    parseKind (documentedArgs name hash unique columns) = documentedKind hash ↔
      (hash = true → strcasecmp name (ascii "TYPE") ≠ 0) := by
  by_cases hname : strcasecmp name (ascii "TYPE") = 0
  · -- The argument behind the name is taken for the kind.
    have hpos : rmUtilArgExists (ascii "TYPE") (documentedArgs name hash unique columns) 0 = 1 :=
      rmUtilArgExists_found [ascii "IDX.CREATE"] (by simp) (by simp; decide) hname
    have hkind : parseKind (documentedArgs name hash unique columns) = .abstractIndex := by
      simp only [parseKind, rmUtilParseArgAfter, hpos]
      cases hash <;> cases unique <;> rfl
    rw [hkind]
    cases hash with
    | true => simp [documentedKind, hname]
    | false => simp [documentedKind]
  · cases hash with
    | true =>
        -- The option stands behind the name.
        have hpos : rmUtilArgExists (ascii "TYPE") (documentedArgs name true unique columns) 0 =
            2 :=
          rmUtilArgExists_found [ascii "IDX.CREATE", name] (by simp)
            (by simp [hname]; decide) (by decide)
        have hkind : parseKind (documentedArgs name true unique columns) = .hashIndex := by
          simp only [parseKind, rmUtilParseArgAfter, hpos]
          rfl
        rw [hkind]
        exact iff_of_true rfl fun _ => hname
    | false =>
        have hpos : rmUtilArgExists (ascii "TYPE") (documentedArgs name false unique columns) 0 =
            0 := by
          -- There is no TYPE: neither among the words nor, without names, among the columns.
          have hno : NoColumnNamed (ascii "TYPE") false columns := fun h => by cases h
          have hwords := hno.words (by simp)
          refine rmUtilArgExists_none fun b hb => ?_
          simp only [documentedArgs, Bool.false_eq_true, if_false, List.nil_append, List.drop_zero,
            List.mem_cons, List.mem_append] at hb
          rcases hb with rfl | rfl | hb | rfl | hb
          · decide
          · exact hname
          · cases unique with
            | true =>
                obtain rfl := List.mem_singleton.1 hb
                decide
            | false => cases hb
          · decide
          · exact hwords b hb
        have hkind : parseKind (documentedArgs name false unique columns) = .abstractIndex := by
          simp only [parseKind, rmUtilParseArgAfter, hpos]
          rfl
        rw [hkind]
        exact iff_of_true rfl fun h => by cases h

/-- The number of arguments before SCHEMA. -/
def schemaPositionOf (hash unique : Bool) : Nat :=
  2 + (if hash then 2 else 0) + (if unique then 1 else 0)

theorem schemaPosition_documented :
    schemaPosition (documentedArgs name hash unique columns) (uniquePosition hash unique) =
      schemaPositionOf hash unique := by
  cases hash with
  | true =>
      cases unique with
      | true =>
          exact rmUtilArgExists_found
            [ascii "IDX.CREATE", name, ascii "TYPE", ascii "HASH", ascii "UNIQUE"]
            (by simp [uniquePosition]) (by simp [uniquePosition]) (by decide)
      | false =>
          exact rmUtilArgExists_found [ascii "IDX.CREATE", name, ascii "TYPE", ascii "HASH"]
            (by simp [uniquePosition]) (by simp [uniquePosition]; decide) (by decide)
  | false =>
      cases unique with
      | true =>
          exact rmUtilArgExists_found [ascii "IDX.CREATE", name, ascii "UNIQUE"]
            (by simp [uniquePosition]) (by simp [uniquePosition]) (by decide)
      | false =>
          exact rmUtilArgExists_found [ascii "IDX.CREATE", name] (by simp [uniquePosition])
            (by simp [uniquePosition]) (by decide)

/-- The arguments behind SCHEMA. -/
theorem drop_documentedArgs :
    (documentedArgs name hash unique columns).drop (schemaPositionOf hash unique + 1) =
      columns.flatMap (ColumnText.words hash) := by
  cases hash <;> cases unique <;> simp [documentedArgs, schemaPositionOf]

theorem length_documentedArgs :
    (documentedArgs name hash unique columns).length =
      schemaPositionOf hash unique + 1 + columns.length * wordsPerColumn hash := by
  have hwords : ∀ cs : List ColumnText,
      (cs.flatMap (ColumnText.words hash)).length = cs.length * wordsPerColumn hash := by
    intro cs
    induction cs with
    | nil => simp
    | cons c cs ih =>
        rw [List.flatMap_cons, List.length_append, ih, List.length_cons, Nat.succ_mul]
        cases hash <;> simp [ColumnText.words, wordsPerColumn, Nat.add_comm]
  cases hash <;> cases unique <;>
    simp only [documentedArgs, schemaPositionOf, List.length_cons, List.length_append, hwords,
      if_true, Bool.false_eq_true, if_false, List.length_nil] <;>
    omega

end Options

/-! ## When the documented form is read -/

/-- Where each option is found at its own place, the columns are read as they are written; a name is
cut at its first NUL. -/
theorem siParseSpec_documented {name : RedisModuleString} {hash unique : Bool}
    {columns : List ColumnText} (hne : columns ≠ [])
    (htype : hash = true → strcasecmp name (ascii "TYPE") ≠ 0)
    (hunique : unique = false → NoColumnNamed (ascii "UNIQUE") hash columns) :
    siParseSpec (documentedArgs name hash unique columns) =
      .ok (some (documentedKind hash,
        { properties := columns.map fun c =>
            { type := c.type.type, flags := 0,
              name := if hash then some (cString c.name) else none }
          flags := documentedFlags hash unique })) := by
  have hpos := List.length_pos_iff.2 hne
  have hnamed : decide (documentedKind hash = SIIndexKind.hashIndex) = hash := by
    cases hash <;> rfl
  have hflags : specFlags (uniquePosition hash unique) hash = documentedFlags hash unique := by
    cases hash <;> cases unique <;> rfl
  have hlen := length_documentedArgs name hash unique columns
  -- What stands behind `SCHEMA` are the words of the columns and nothing else.
  have hwords : (documentedArgs name hash unique columns).length -
      (schemaPositionOf hash unique + 1) = columns.length * wordsPerColumn hash := by
    omega
  have hnum : specNumProps hash (columns.length * wordsPerColumn hash) = columns.length := by
    cases hash <;> simp [specNumProps, wordsPerColumn]
  have heven : ¬(hash = true ∧ columns.length * wordsPerColumn hash % 2 ≠ 0) := by
    rintro ⟨rfl, h⟩
    simp [wordsPerColumn] at h
  have hroom : ¬(schemaPositionOf hash unique = 0 ∨
      (documentedArgs name hash unique columns).length ≤ schemaPositionOf hash unique + 1) := by
    have hone : 1 ≤ wordsPerColumn hash := by cases hash <;> simp [wordsPerColumn]
    have hle : columns.length ≤ columns.length * wordsPerColumn hash :=
      Nat.le_mul_of_pos_right _ hone
    simp only [schemaPositionOf] at hlen ⊢
    omega
  simp only [siParseSpec, unique_documented name hash unique columns hunique,
    (parseKind_documented name hash unique columns).2 htype, hnamed, schemaPosition_documented,
    if_neg hroom, hwords, if_neg heven, hnum, drop_documentedArgs, parseColumns_documented, ok_bind,
    Option.map_some, hflags]

/-- The kind and the flags of a spec that was parsed. -/
theorem kind_flags_of_siParseSpec {argv : List RedisModuleString} {kind : SIIndexKind}
    {spec : SISpec} (h : siParseSpec argv = .ok (some (kind, spec))) :
    kind = parseKind argv ∧
      spec.flags = specFlags (rmUtilArgExists (ascii "UNIQUE") argv 2)
        (decide (kind = .hashIndex)) := by
  simp only [siParseSpec] at h
  split at h
  · cases h
  split at h
  · cases h
  obtain ⟨properties, _, h⟩ := bind_eq_ok.1 h
  cases properties with
  | none => cases h
  | some ps =>
      simp only [Option.map_some, Except.ok.injEq, Option.some.injEq, Prod.mk.injEq] at h
      obtain ⟨rfl, rfl⟩ := h
      exact ⟨rfl, rfl⟩

/-- A name without a NUL is the one that is kept. -/
theorem cString_bytes_eq_iff {bytes : List UInt8} : (cString bytes).bytes = bytes ↔ 0 ∉ bytes := by
  rw [cString, List.takeWhile_eq_self_iff]
  simp only [decide_eq_true_eq]
  exact ⟨fun h hzero => h 0 hzero rfl, fun h b hb hzero => h (hzero ▸ hb)⟩

/-- IDX.CREATE reads its documented form exactly when it has no names, or neither the index is named
TYPE nor, without the option, a column UNIQUE, and no name has a NUL in it. -/
theorem siParseSpec_documented_iff (name : RedisModuleString) (hash unique : Bool)
    (column : ColumnText) (columns : List ColumnText) :
    ReadAsDocumented name hash unique (column :: columns) ↔
      (hash = true → strcasecmp name (ascii "TYPE") ≠ 0 ∧
        (unique = false → ∀ c ∈ column :: columns, strcasecmp c.name (ascii "UNIQUE") ≠ 0) ∧
        ∀ c ∈ column :: columns, (0 : UInt8) ∉ c.name) := by
  generalize hcols : column :: columns = cols
  have hne : cols ≠ [] := by simp [← hcols]
  by_cases htype : hash = true → strcasecmp name (ascii "TYPE") ≠ 0
  · by_cases hunique : unique = false → NoColumnNamed (ascii "UNIQUE") hash cols
    · -- The words are found where they stand, and only a name can be cut short.
      have hparse := siParseSpec_documented hne htype hunique
      have hread : ReadAsDocumented name hash unique cols ↔
          cols.map (fun c => ((if hash then some (cString c.name) else none).map CString.bytes,
            c.type.type)) = cols.map fun c => (if hash then some c.name else none, c.type.type) := by
        constructor
        · rintro ⟨spec, hspec, _, hcolumns⟩
          obtain ⟨_, rfl⟩ := Prod.mk.inj (Option.some.inj (Except.ok.inj (hparse.symm.trans hspec)))
          simpa [List.map_map, Function.comp_def] using hcolumns
        · intro hcolumns
          exact ⟨_, hparse, rfl, by simpa [List.map_map, Function.comp_def] using hcolumns⟩
      rw [hread, List.map_inj_left]
      cases hash with
      | true =>
          simp only [if_true, Option.map_some, Prod.mk.injEq, Option.some.injEq, and_true,
            cString_bytes_eq_iff, forall_const]
          exact ⟨fun h => ⟨htype rfl, fun hu => hunique hu rfl, h⟩, fun h => h.2.2⟩
      | false => simp
    · -- The flag is set though the option is not there.
      simp only [NoColumnNamed, Classical.not_imp, not_forall, not_not] at hunique
      obtain ⟨rfl, rfl, c, hc, hname⟩ := hunique
      have hfound := unique_column name false cols hc hname
      constructor
      · rintro ⟨spec, hspec, hflags, _⟩
        have hset := (kind_flags_of_siParseSpec hspec).2
        rw [hflags, specFlags, if_neg hfound] at hset
        exact absurd hset (by decide)
      · exact fun h => absurd hname ((h rfl).2.1 rfl c hc)
  · simp only [Classical.not_imp, not_not] at htype
    -- The name of the index is taken for the option TYPE.
    obtain ⟨rfl, hname⟩ := htype
    constructor
    · rintro ⟨spec, hspec, _⟩
      have hkind := (parseKind_documented name true unique cols).1
        (kind_flags_of_siParseSpec hspec).1.symm
      exact absurd hname (hkind rfl)
    · exact fun h => absurd hname (h rfl).1

/-- The word as the documentation has it. -/
def TypeWord.upper (t : SIType) (w : RedisModuleString)
    (h : (some w, t) ∈ siTypes.zip typeEnums) : TypeWord where
  type := t
  word := w
  spelled := ⟨w, h, rfl⟩

/-- `IDX.CREATE idx TYPE HASH SCHEMA unique STRING`: the schema is looked for behind the name of the
column, and there is none. -/
theorem siParseSpec_column_named_unique :
    siParseSpec (documentedArgs (ascii "idx") true false
        [{ name := ascii "unique", type := .upper .string (ascii "STRING") (by decide) }]) =
      .ok none ∧
    ¬ReadAsDocumented (ascii "idx") true false
        [{ name := ascii "unique", type := .upper .string (ascii "STRING") (by decide) }] := by
  have hparse : siParseSpec (documentedArgs (ascii "idx") true false
      [{ name := ascii "unique", type := .upper .string (ascii "STRING") (by decide) }]) =
        .ok none := rfl
  refine ⟨hparse, ?_⟩
  rintro ⟨spec, hspec, _⟩
  cases hparse.symm.trans hspec

end Secondary
