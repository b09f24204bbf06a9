import Secondary.IndexMap
import Secondary.Rdb

/-!
# Schema — `SI_ParseSpec`, and the schema that an AOF rewrite emits

IDX.CREATE takes its schema as words, which `SI_ParseSpec` looks up in the table `types`.  The AOF
rewrite writes the schema of an index as such words again, but it takes the code of a type, which
is a bit mask, as its position in the table; so no schema comes back.
-/

namespace Secondary

open Lib

/-! ## Strings of commands -/

/-- The bytes of an ASCII literal. -/
def ascii (s : String) : List UInt8 :=
  s.toList.map fun c => UInt8.ofNat c.toNat

/-- The bytes of a `RedisModuleString`; a NUL follows the last one. -/
abbrev RedisModuleString : Type :=
  List UInt8

/-- `strcasecmp`, up to the first NUL. -/
def strcasecmp : List UInt8 → List UInt8 → Int
  | a :: as, b :: bs =>
      if tolower a ≠ tolower b then
        ((tolower a).toNat : Int) - (tolower b).toNat
      else if a = 0 then
        0
      else
        strcasecmp as bs
  | a :: _, [] => (tolower a).toNat
  | [], b :: _ => -((tolower b).toNat : Int)
  | [], [] => 0

/-- `RMUtil_ArgExists`: the position of the argument from `offset` on, or 0. -/
def rmUtilArgExists (arg : List UInt8) (argv : List RedisModuleString) (offset : Nat) : Nat :=
  match (argv.drop offset).findIdx? fun carg => decide (strcasecmp carg arg = 0) with
  | some i => offset + i
  | none => 0

/-- `RMUtil_ParseArgsAfter(token, argv, argc, "s", ...)`: the argument that follows `token`. -/
def rmUtilParseArgAfter (token : List UInt8) (argv : List RedisModuleString) :
    Option RedisModuleString :=
  let pos := rmUtilArgExists token argv 0
  if pos = 0 then none else argv[pos + 1]?

/-! ## Words for types -/

/-- `types`; NULL ends it. -/
def siTypes : List (Option (List UInt8)) :=
  [some (ascii "STRING"), some (ascii "INT32"), some (ascii "INT64"), some (ascii "UINT"),
    some (ascii "BOOL"), some (ascii "FLOAT"), some (ascii "DOUBLE"), some (ascii "TIME"), none]

def typeEnums : List SIType :=
  [.string, .int32, .int64, .uint, .bool, .float, .double, .time, .null]

/-- `for (int t = 0; types[t] != NULL; t++)`: the type that the word names. -/
def findType (str : RedisModuleString) : List (Option (List UInt8)) → List SIType → Option SIType
  | some word :: words, t :: ts =>
      if word.length = str.length ∧ strncasecmp str.length str word = 0 then
        some t
      else
        findType str words ts
  | _, _ => none

/-! ## Parsing a schema -/

/-- The name of a column, where columns have names, and the arguments after it. -/
def columnName (named : Bool) (args : List RedisModuleString) :
    Exec (Option CString × List RedisModuleString) :=
  if named then do
    let propName ← orFault args.head? .bounds
    .ok (some (cString propName), args.tail)
  else
    .ok (none, args)

/-- `while (p < spec->numProps)`: the columns, or nothing where a type is not known. -/
def parseColumns (named : Bool) :
    Nat → List RedisModuleString → Exec (Option (List SIIndexProperty))
  | 0, _ => .ok (some [])
  | n + 1, args => do
      let r ← columnName named args
      let str ← orFault r.2.head? .bounds
      match findType str siTypes typeEnums with
      | none => .ok none
      | some t => do
          let rest ← parseColumns named n r.2.tail
          .ok (rest.map fun ps => { type := t, flags := 0, name := r.1 } :: ps)

/-- `*kind`, from the argument after TYPE. -/
def parseKind (argv : List RedisModuleString) : SIIndexKind :=
  match rmUtilParseArgAfter (ascii "TYPE") argv with
  | none => .abstractIndex
  | some cts => if strcasecmp cts (ascii "HASH") = 0 then .hashIndex else .abstractIndex

/-- `schemaPos`; SCHEMA is looked for after UNIQUE where that was found. -/
def schemaPosition (argv : List RedisModuleString) (unique : Nat) : Nat :=
  rmUtilArgExists (ascii "SCHEMA") argv (if unique = 0 then 2 else unique + 1)

/-- `spec->flags` -/
def specFlags (unique : Nat) (named : Bool) : UInt32 :=
  (if unique = 0 then 0 else siIndexUnique) ||| (if named then siIndexNamed else 0)

/-- `spec->numProps`, from the number of words after SCHEMA. -/
def specNumProps (named : Bool) (words : Nat) : Nat :=
  if named then words / 2 else words

/-- `SI_ParseSpec`: the kind and the spec, or nothing for `REDISMODULE_ERR`. -/
def siParseSpec (argv : List RedisModuleString) : Exec (Option (SIIndexKind × SISpec)) :=
  let unique := rmUtilArgExists (ascii "UNIQUE") argv 2
  let kind := parseKind argv
  let named := decide (kind = .hashIndex)
  let pos := schemaPosition argv unique
  let words := argv.length - (pos + 1)
  if pos = 0 ∨ argv.length ≤ pos + 1 then
    .ok none
  else if named = true ∧ words % 2 ≠ 0 then
    -- A named column is two words, its name and its type.
    .ok none
  else do
    let properties ← parseColumns named (specNumProps named words) (argv.drop (pos + 1))
    .ok (properties.map fun ps =>
      (kind, { properties := ps, flags := specFlags unique named }))

/-! ## Emitting a schema -/

/-- `__vpushStr(args, ctx, spec.properties[i].name)` -/
def aofName (named : Bool) (p : SIIndexProperty) : Exec (List RedisModuleString) :=
  if named then do
    let name ← orFault p.name .null
    .ok [name.bytes]
  else
    .ok []

/-- `__vpushStr(args, ctx, types[spec.properties[i].type])`, for every column. -/
def aofColumns (named : Bool) : List SIIndexProperty → Exec (List RedisModuleString)
  | [] => .ok []
  | p :: ps => do
      let name ← aofName named p
      -- The code of the type is used as an index into the table.
      let entry ← orFault siTypes[p.type.code]? .bounds
      let word ← orFault entry .null
      let rest ← aofColumns named ps
      .ok (name ++ word :: rest)

/-- The arguments after the key of the IDX.CREATE that `RedisIndex_AofRewrite` emits. -/
def aofSchema (kind : SIIndexKind) (spec : SISpec) : Exec (List RedisModuleString) := do
  let columns ← aofColumns (isNamed spec.flags) spec.properties
  .ok ((if kind = .hashIndex then [ascii "TYPE", ascii "HASH"] else []) ++
    ascii "SCHEMA" :: columns)

/-- IDX.CREATE on `key` -/
def createCommand (key : RedisModuleString) (args : List RedisModuleString) :
    List RedisModuleString :=
  ascii "IDX.CREATE" :: key :: args

/-- The emitted IDX.CREATE is accepted, and makes the same kind, flags and columns. -/
def SchemaRoundTrips (key : RedisModuleString) (kind : SIIndexKind) (spec : SISpec) : Prop :=
  ∃ args spec', aofSchema kind spec = .ok args ∧
    siParseSpec (createCommand key args) = .ok (some (kind, spec')) ∧ spec'.flags = spec.flags ∧
    spec'.properties.map (fun p => (p.name, p.type)) =
      spec.properties.map fun p => (p.name, p.type)

/-! ## What was parsed -/

/-- How many words a column takes. -/
def wordsPerColumn (named : Bool) : Nat :=
  if named then 2 else 1

theorem parseColumns_length {named : Bool} :
    ∀ {n : Nat} {args : List RedisModuleString} {ps : List SIIndexProperty},
      parseColumns named n args = .ok (some ps) → ps.length = n
  | 0, _, ps, h => by
      obtain rfl : [] = ps := by simpa [parseColumns] using h
      rfl
  | n + 1, args, ps, h => by
      obtain ⟨r, _, h⟩ := bind_eq_ok.1 h
      obtain ⟨str, _, h⟩ := bind_eq_ok.1 h
      cases htype : findType str siTypes typeEnums with
      | none => simp [htype] at h
      | some t =>
          simp only [htype] at h
          obtain ⟨rest, hrest, h⟩ := bind_eq_ok.1 h
          cases rest with
          | none => simp at h
          | some qs =>
              obtain rfl : _ = ps := by simpa using h
              rw [List.length_cons, parseColumns_length hrest]

theorem isNamed_specFlags (unique : Nat) (named : Bool) :
    isNamed (specFlags unique named) = named := by
  by_cases hu : unique = 0
  · cases named <;> simp [specFlags, hu] <;> decide
  · cases named <;> simp [specFlags, hu] <;> decide

/-- A spec that was parsed has names when its kind is HASH, and its columns are all that stands
after SCHEMA. -/
theorem siParseSpec_ok {argv : List RedisModuleString} {kind : SIIndexKind} {spec : SISpec}
    (h : siParseSpec argv = .ok (some (kind, spec))) :
    isNamed spec.flags = decide (kind = .hashIndex) ∧ spec.properties ≠ [] ∧
      ∃ pos, argv.length =
          pos + 1 + spec.properties.length * wordsPerColumn (isNamed spec.flags) ∧
        parseColumns (isNamed spec.flags) spec.properties.length (argv.drop (pos + 1)) =
          .ok (some spec.properties) := by
  have hrun := h
  simp only [siParseSpec] at hrun
  by_cases hpos : schemaPosition argv (rmUtilArgExists (ascii "UNIQUE") argv 2) = 0 ∨
      argv.length ≤ schemaPosition argv (rmUtilArgExists (ascii "UNIQUE") argv 2) + 1
  · simp [hpos] at hrun
  generalize schemaPosition argv (rmUtilArgExists (ascii "UNIQUE") argv 2) = pos at hpos hrun
  rw [if_neg hpos] at hrun
  by_cases hodd : decide (parseKind argv = .hashIndex) = true ∧
      (argv.length - (pos + 1)) % 2 ≠ 0
  · simp [hodd] at hrun
  rw [if_neg hodd] at hrun
  obtain ⟨properties, hcols, hspec⟩ := bind_eq_ok.1 hrun
  cases properties with
  | none => simp at hspec
  | some ps =>
      simp only [Option.map_some, Except.ok.injEq, Option.some.injEq, Prod.mk.injEq] at hspec
      obtain ⟨rfl, rfl⟩ := hspec
      have hlen := parseColumns_length hcols
      simp only [isNamed_specFlags]
      -- The words after SCHEMA are those of the columns; with names, their number is even.
      have hwords : argv.length = pos + 1 +
          ps.length * wordsPerColumn (decide (parseKind argv = .hashIndex)) := by
        cases hnamed : decide (parseKind argv = .hashIndex) with
        | true =>
            simp only [hnamed, specNumProps, if_true, true_and, not_not] at hlen hodd
            simp only [wordsPerColumn, if_true]
            omega
        | false =>
            simp only [hnamed, specNumProps, Bool.false_eq_true, if_false] at hlen
            simp only [wordsPerColumn, Bool.false_eq_true, if_false]
            omega
      refine ⟨trivial, ?_, pos, hwords, by rw [hlen]; exact hcols⟩
      rintro rfl
      simp only [List.length_nil, Nat.zero_mul] at hwords
      omega

/-! ## No schema comes back -/

theorem aofName_length {named : Bool} {p : SIIndexProperty} {words : List RedisModuleString}
    (h : aofName named p = .ok words) : words.length + 1 = wordsPerColumn named := by
  cases named with
  | true =>
      obtain ⟨name, _, h⟩ := bind_eq_ok.1 h
      obtain rfl := Except.ok.inj h
      rfl
  | false =>
      obtain rfl := Except.ok.inj h
      rfl

theorem aofColumns_length {named : Bool} :
    ∀ {ps : List SIIndexProperty} {words : List RedisModuleString},
      aofColumns named ps = .ok words → words.length = ps.length * wordsPerColumn named
  | [], words, h => by
      obtain rfl := Except.ok.inj h
      simp
  | p :: ps, words, h => by
      obtain ⟨name, hname, h⟩ := bind_eq_ok.1 h
      obtain ⟨entry, _, h⟩ := bind_eq_ok.1 h
      obtain ⟨word, _, h⟩ := bind_eq_ok.1 h
      obtain ⟨rest, hrest, h⟩ := bind_eq_ok.1 h
      obtain rfl := Except.ok.inj h
      have hlen := aofName_length hname
      rw [List.length_append, List.length_cons, aofColumns_length hrest, List.length_cons,
        Nat.succ_mul]
      omega

/-- The entry of the table at the code of a type is not the word for the type. -/
theorem findType_entry {t : SIType} {word : List UInt8} (h : siTypes[t.code]? = some (some word)) :
    findType word siTypes typeEnums ≠ some t := by
  cases t <;> simp [SIType.code, siTypes] at h <;> subst h <;> decide

/-- The words of the first column are parsed as another type. -/
theorem parseColumns_aofColumns {named : Bool} {p : SIIndexProperty} {ps qs : List SIIndexProperty}
    {words : List RedisModuleString} (hwords : aofColumns named (p :: ps) = .ok words) {n : Nat}
    (hparse : parseColumns named (n + 1) words = .ok (some qs)) :
    ∃ q, qs.head? = some q ∧ q.type ≠ p.type := by
  obtain ⟨name, hname, hwords⟩ := bind_eq_ok.1 hwords
  obtain ⟨entry, hentry, hwords⟩ := bind_eq_ok.1 hwords
  obtain ⟨word, hword, hwords⟩ := bind_eq_ok.1 hwords
  obtain ⟨rest, _, hwords⟩ := bind_eq_ok.1 hwords
  obtain rfl := Except.ok.inj hwords
  have hentry := orFault_eq_ok.1 hentry
  obtain rfl := orFault_eq_ok.1 hword
  have hother := findType_entry hentry
  -- The name is skipped, so the word is what the type is read from.
  have hskip : ∃ c, columnName named (name ++ word :: rest) = .ok (c, word :: rest) := by
    cases named with
    | true =>
        obtain ⟨s, _, hname⟩ := bind_eq_ok.1 hname
        obtain rfl := Except.ok.inj hname
        exact ⟨some (cString s.bytes), rfl⟩
    | false =>
        obtain rfl := Except.ok.inj hname
        exact ⟨none, rfl⟩
  obtain ⟨c, hskip⟩ := hskip
  cases htype : findType word siTypes typeEnums with
  | none => simp [parseColumns, hskip, htype] at hparse
  | some t =>
      simp only [parseColumns, hskip, htype, ok_bind, List.head?_cons, orFault_some,
        List.tail_cons] at hparse
      obtain ⟨others, _, hparse⟩ := bind_eq_ok.1 hparse
      cases others with
      | none => simp at hparse
      | some others =>
          obtain rfl : _ = qs := by simpa using hparse
          refine ⟨_, rfl, fun heq => hother ?_⟩
          rw [htype]
          exact congrArg some heq

/-- The schema that is emitted for an index never comes back: the first column has another type, or
the rewrite reads outside the table. -/
theorem schema_never_roundTrips {argv : List RedisModuleString} {kind : SIIndexKind} {spec : SISpec}
    (h : siParseSpec argv = .ok (some (kind, spec))) (key : RedisModuleString) :
    ¬SchemaRoundTrips key kind spec := by
  rintro ⟨args, spec', hemit, hparse, hflags, hcolumns⟩
  obtain ⟨_, hne, _⟩ := siParseSpec_ok h
  obtain ⟨_, _, pos, hlen, hcols⟩ := siParseSpec_ok hparse
  obtain ⟨words, hwords, hargs⟩ := bind_eq_ok.1 hemit
  obtain rfl := Except.ok.inj hargs
  have hcount : spec'.properties.length = spec.properties.length := by
    simpa using congrArg List.length hcolumns
  rw [hflags, hcount] at hlen hcols
  -- As many words stand after the position where the parser begins as the columns have.
  have hdrop : (createCommand key ((if kind = .hashIndex then [ascii "TYPE", ascii "HASH"] else [])
      ++ ascii "SCHEMA" :: words)).drop (pos + 1) = words := by
    have hsplit : createCommand key ((if kind = .hashIndex then [ascii "TYPE", ascii "HASH"]
        else []) ++ ascii "SCHEMA" :: words) =
        (createCommand key ((if kind = .hashIndex then [ascii "TYPE", ascii "HASH"] else [])
          ++ [ascii "SCHEMA"])) ++ words := by
      simp [createCommand]
    rw [hsplit] at hlen ⊢
    rw [List.length_append, aofColumns_length hwords] at hlen
    rw [List.drop_append_of_le_length (by omega), List.drop_eq_nil_iff.2 (by omega),
      List.nil_append]
  rw [hdrop] at hcols
  cases hprops : spec.properties with
  | nil => exact hne hprops
  | cons p ps =>
      rw [hprops] at hwords hcols hcolumns
      obtain ⟨q, hq, htype⟩ := parseColumns_aofColumns hwords hcols
      have hhead := congrArg List.head? hcolumns
      rw [List.head?_map, hq] at hhead
      simp only [Option.map_some, List.map_cons, List.head?_cons, Option.some.injEq,
        Prod.mk.injEq] at hhead
      exact htype hhead.2

/-- A schema of one INT32 column. -/
theorem schema_never_roundTrips_int :
    siParseSpec [ascii "IDX.CREATE", ascii "k", ascii "SCHEMA", ascii "int32"] =
        .ok (some (.abstractIndex, oneColumn .int32 0)) ∧
      ¬SchemaRoundTrips (ascii "k") .abstractIndex (oneColumn .int32 0) :=
  ⟨rfl, schema_never_roundTrips (show siParseSpec [ascii "IDX.CREATE", ascii "k", ascii "SCHEMA",
    ascii "int32"] = .ok (some (.abstractIndex, oneColumn .int32 0)) from rfl) (ascii "k")⟩

/-- The emitted schema of one INT32 column says INT64. -/
theorem schema_int32_becomes_int64 :
    siParseSpec [ascii "IDX.CREATE", ascii "k", ascii "SCHEMA", ascii "INT32"] =
        .ok (some (.abstractIndex, oneColumn .int32 0)) ∧
      aofSchema .abstractIndex (oneColumn .int32 0) = .ok [ascii "SCHEMA", ascii "INT64"] ∧
      siParseSpec (createCommand (ascii "k") [ascii "SCHEMA", ascii "INT64"]) =
        .ok (some (.abstractIndex, oneColumn .int64 0)) ∧
      ¬SchemaRoundTrips (ascii "k") .abstractIndex (oneColumn .int32 0) := by
  refine ⟨rfl, rfl, rfl, ?_⟩
  rintro ⟨args, spec', hemit, hparse, _, hcolumns⟩
  obtain rfl : [ascii "SCHEMA", ascii "INT64"] = args := Except.ok.inj hemit
  have hspec : some (SIIndexKind.abstractIndex, oneColumn .int64 0) = some (.abstractIndex, spec') :=
    Except.ok.inj hparse
  obtain rfl : oneColumn .int64 0 = spec' := by simpa using hspec
  simp [oneColumn] at hcolumns

end Secondary
