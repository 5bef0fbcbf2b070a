import Mathlib.Data.Nat.Digits.Lemmas
import Mathlib.Tactic

/-!
# The plugin configuration reader

A plugin asks a `ConfigReader` for the values of its keys and ends with `finish`. The reader has a
status that stays with the first failure and a mark for every pair it has handed out; a key is
looked up as the first pair that has it. `finish` succeeds exactly if the pairs and the requests fit
(`Fits`), and then every request has its value (`finish_iff`).
-/

namespace Coccl.ConfigReader

open List

/-- A pair of the configuration; either text may be null. -/
structure Pair where
  key : Option String
  value : Option String

/-- `cocclConfigView`: the pairs, or their number if there is no storage for them. -/
inductive View where
  | stored (pairs : List Pair)
  | unstored (count : ℕ)

/-- The pairs a reader goes through; those without storage have no texts. -/
def View.pairs : View → List Pair
  | stored pairs => pairs
  | unstored count => .replicate count ⟨none, none⟩

/-- The types of the source's `parse`. -/
inductive ValueType where
  | integer (signed : Bool) (bits : ℕ)
  | floating (double : Bool)
  | boolean
  | string
  deriving DecidableEq

/-- An output; `φ` are the floating-point numbers. -/
inductive Value (φ : Type) where
  | integer (value : ℤ)
  | floating (value : φ)
  | boolean (value : Bool)
  | string (value : String)
  | enumeration (value : ℤ)

/-- A digit sequence, which must not be empty. -/
def parseDigits (digits : List Char) : Option ℕ :=
  if digits ≠ [] ∧ digits.all Char.isDigit then
    some (digits.foldl (fun n c => 10 * n + (c.toNat - '0'.toNat)) 0)
  else none

/-- `std::from_chars` up to the end of the text: a minus sign is taken for a signed type only. -/
def parseInteger (signed : Bool) (bits : ℕ) (text : String) : Option ℤ :=
  let number : Option ℤ := match signed, text.toList with
    | true, '-' :: digits => (parseDigits digits).map fun n : ℕ => -(n : ℤ)
    | _, digits => (parseDigits digits).map fun n : ℕ => (n : ℤ)
  if signed then number.filter fun n => -2 ^ (bits - 1) ≤ n ∧ n < 2 ^ (bits - 1)
  else number.filter fun n => n < 2 ^ bits

/-- What is left open of the floating-point types: `parse` of `float` and of `double`. -/
class FloatingPoint (φ : Type) where
  parse : (double : Bool) → String → Option φ

section

variable {φ : Type} [LT φ] [DecidableLT φ] [FloatingPoint φ]

def parse : ValueType → String → Option (Value φ)
  | .integer signed bits, text => (parseInteger signed bits text).map .integer
  | .floating double, text => (FloatingPoint.parse double text).map .floating
  | .boolean, text =>
    if text = "true" then some (.boolean true)
    else if text = "false" then some (.boolean false)
    else none
  | .string, text => some (.string text)

/-- `<` of one type. -/
def Value.less : Value φ → Value φ → Bool
  | integer a, integer b => a < b
  | floating a, floating b => a < b
  | boolean a, boolean b => !a && b
  | string a, string b => a < b
  | _, _ => false

/-- The calls of a plugin, for keys that are not null. -/
inductive Request (φ : Type) where
  | get (key : String) (type : ValueType)
  | getRanged (key : String) (type : ValueType) (minimum maximum : Value φ)
  | getEnum (key : String) (entries : List (Option String × ℤ))

namespace Request

def key : Request φ → String
  | get key _ | getRanged key _ _ _ | getEnum key _ => key

def emptyRange : Request φ → Bool
  | getRanged _ _ minimum maximum => maximum.less minimum
  | _ => false

/-- What is assigned for a text, and why the text is refused. -/
def assign (text : String) : Request φ → Option (Value φ) × Option String
  | get _ type =>
    match parse type text with
    | none => (none, some "has an invalid value")
    | some value => (some value, none)
  | getRanged _ type minimum maximum =>
    match parse type text with
    | none => (none, some "is outside the allowed range")
    | some value => (some value,
        if value.less minimum || maximum.less value then some "is outside the allowed range"
        else none)
  | getEnum _ entries =>
    match entries.find? (·.1 = some text) with
    | none => (none, some "is not a supported enum value")
    | some entry => (some (.enumeration entry.2), none)

end Request

/-- The reader: the pairs with `consumed_`, and a failure with the key and the reason of its
message. Without storage `consumed_` has no pairs to go with. -/
structure Reader where
  hasStorage : Bool
  pairs : List (Pair × Bool)
  failure : Option (Option String × String)

namespace Reader

/-- The constructor. -/
def new : Option View → Reader
  | none => ⟨true, [], none⟩
  | some (.stored pairs) => ⟨true, pairs.map (·, false), none⟩
  | some (.unstored count) => ⟨count = 0, (View.unstored count).pairs.map (·, false), none⟩

/-- `fail`: the first failure stays. -/
def fail (reader : Reader) (key : Option String) (reason : String) : Reader :=
  { reader with failure := reader.failure.or (some (key, reason)) }

/-- The first pair with the key is marked; `none` if it is marked already or has no value, and the
text is `none` if there is no such pair. -/
def take (key : String) : List (Pair × Bool) → Option (Option String × List (Pair × Bool))
  | [] => some (none, [])
  | (pair, consumed) :: rest =>
    if pair.key = some key then
      if consumed then none else pair.value.map fun value => (some value, (pair, true) :: rest)
    else (take key rest).map fun taken => (taken.1, (pair, consumed) :: taken.2)

def consume (reader : Reader) (key : String) : Option String × Reader :=
  if reader.hasStorage then
    match take key reader.pairs with
    | none => (none, reader.fail (some key) "is duplicated or has no value")
    | some (value, pairs) => (value, { reader with pairs := pairs })
  else (none, reader.fail none "has no key/value storage")

/-- One request: what is assigned to its output, and the reader after it. -/
def request (reader : Reader) (request : Request φ) : Option (Value φ) × Reader :=
  if reader.failure.isSome then (none, reader)
  else if request.emptyRange then (none, reader.fail (some request.key) "has an invalid range")
  else
    match reader.consume request.key with
    | (none, reader) => (none, reader)
    | (some text, reader) =>
      match request.assign text with
      | (value, none) => (value, reader)
      | (value, some reason) => (value, reader.fail (some request.key) reason)

def requests (reader : Reader) : List (Request φ) → List (Option (Value φ)) × Reader
  | [] => ([], reader)
  | request :: rest =>
    let first := reader.request request
    let later := first.2.requests rest
    (first.1 :: later.1, later.2)

/-- The failure `finish` returns. -/
def finish (reader : Reader) : Option (Option String × String) :=
  reader.failure.or ((reader.pairs.find? (!·.2)).map fun x =>
    (x.1.key, "is not recognized by this compressor"))

end Reader

/-! ## What a plugin may expect -/

/-- Digits, the highest first, and the number they are in base ten. -/
def Decimal (digits : List Char) (n : ℕ) : Prop :=
  ∃ values : List ℕ, values ≠ [] ∧ (∀ v ∈ values, v < 10) ∧ digits = values.map Nat.digitChar ∧
    n = Nat.ofDigits 10 values.reverse

/-- A text that denotes a value of a type from its first character to its last. -/
inductive Spells : ValueType → String → Value φ → Prop
  | natural {signed : Bool} {bits n : ℕ} {digits : List Char} (decimal : Decimal digits n)
      (fits : n < 2 ^ (if signed then bits - 1 else bits)) :
      Spells (.integer signed bits) (.ofList digits) (.integer n)
  | negative {bits n : ℕ} {digits : List Char} (decimal : Decimal digits n)
      (fits : n ≤ 2 ^ (bits - 1)) :
      Spells (.integer true bits) (.ofList ('-' :: digits)) (.integer (-n))
  | floating {double : Bool} {text : String} {value : φ}
      (parsed : FloatingPoint.parse double text = some value) :
      Spells (.floating double) text (.floating value)
  | boolean (value : Bool) : Spells .boolean (if value then "true" else "false") (.boolean value)
  | string (text : String) : Spells .string text (.string text)

/-- What a text denotes for a request: a value of the type and within the range, or that of the
first entry with the text. -/
def Request.Denotes (text : String) (value : Value φ) : Request φ → Prop
  | get _ type => Spells type text value
  | getRanged _ type minimum maximum =>
    Spells type text value ∧ ¬ value.less minimum ∧ ¬ maximum.less value
  | getEnum _ entries => ∃ earlier n later, entries = earlier ++ (some text, n) :: later ∧
      (∀ entry ∈ earlier, entry.1 ≠ some text) ∧ value = .enumeration n

/-- Pairs and requests that fit. -/
structure Fits (pairs : List Pair) (requests : List (Request φ)) : Prop where
  ranges : ∀ request ∈ requests, request.emptyRange = false
  requested : ∀ pair ∈ pairs, ∃ request ∈ requests, pair.key = some request.key
  distinct : (pairs.map (·.key)).Nodup
  once : requests.Pairwise fun r r' => r.key = r'.key → ∀ pair ∈ pairs, pair.key ≠ some r.key
  values : ∀ request ∈ requests, ∀ pair ∈ pairs, pair.key = some request.key →
    ∃ text ∈ pair.value, ∃ value, request.Denotes text value

/-- What a request leaves in its output: what the text of its key denotes, or nothing if there is
no such key. -/
def Leaves (pairs : List Pair) (request : Request φ) : Option (Value φ) → Prop
  | none => ∀ pair ∈ pairs, pair.key ≠ some request.key
  | some value => ∃ pair ∈ pairs, pair.key = some request.key ∧
      ∃ text ∈ pair.value, request.Denotes text value

/-! ## Texts -/

theorem isDigit_iff (c : Char) : c.isDigit = true ↔ ∃ v < 10, c = Nat.digitChar v := by
  constructor
  · intro h
    have hrange : 48 ≤ c.toNat ∧ c.toNat ≤ 57 := by
      simpa [Char.isDigit, UInt32.le_iff_toNat_le] using h
    refine ⟨c.toNat - 48, by omega, ?_⟩
    rw [← Char.ofNat_toNat c]
    generalize c.toNat = n at hrange
    obtain ⟨hlow, hhigh⟩ := hrange
    interval_cases n <;> rfl
  · rintro ⟨v, hv, rfl⟩
    interval_cases v <;> rfl

theorem foldl_digitChar {values : List ℕ} (h : ∀ v ∈ values, v < 10) (n : ℕ) :
    (values.map Nat.digitChar).foldl (fun n c => 10 * n + (c.toNat - '0'.toNat)) n =
      10 ^ values.length * n + Nat.ofDigits 10 values.reverse := by
  induction values generalizing n with
  | nil => simp
  | cons v values ih =>
    have hv : (Nat.digitChar v).toNat - '0'.toNat = v := by
      have := h v mem_cons_self
      interval_cases v <;> rfl
    rw [map_cons, foldl_cons, ih fun v hv => h v (mem_cons_of_mem _ hv), hv, reverse_cons,
      Nat.ofDigits_append, length_reverse, Nat.ofDigits_singleton, length_cons]
    ring

variable {digits : List Char} {n : ℕ}

theorem parseDigits_eq_some : parseDigits digits = some n ↔ Decimal digits n := by
  constructor
  · intro h
    rw [parseDigits, Option.ite_none_right_eq_some, all_eq_true] at h
    obtain ⟨⟨hne, hall⟩, h⟩ := h
    obtain rfl := Option.some.inj h
    choose! value hlt heq using fun c hc => (isDigit_iff c).mp (hall c hc)
    have hdigits : digits = (digits.map value).map Nat.digitChar := by
      rw [map_map]
      exact (map_id' _).symm.trans (map_congr_left heq)
    have hvalue := @foldl_digitChar (digits.map value) (by simpa using hlt) 0
    rw [← hdigits, mul_zero, zero_add] at hvalue
    exact ⟨digits.map value, by simpa using hne, by simpa using hlt, hdigits, hvalue⟩
  · rintro ⟨values, hne, hlt, rfl, rfl⟩
    have hdigit : (values.map Nat.digitChar).all Char.isDigit = true := by
      simpa using fun v hv => (isDigit_iff _).mpr ⟨v, hlt v hv, rfl⟩
    rw [parseDigits, if_pos ⟨by simpa using hne, hdigit⟩, foldl_digitChar hlt, mul_zero, zero_add]

/-- A number does not start with a sign. -/
theorem Decimal.ne_minus (h : Decimal digits n) (rest : List Char) : digits ≠ '-' :: rest := by
  rintro rfl
  have := parseDigits_eq_some.mpr h
  simp [parseDigits, Char.isDigit] at this

variable {text : String}

omit [LT φ] [DecidableLT φ] in
theorem parseInteger_eq_some {signed : Bool} {bits : ℕ} {n : ℤ} :
    parseInteger signed bits text = some n ↔
      Spells (.integer signed bits) text (.integer n : Value φ) := by
  constructor
  · intro h
    rw [← String.ofList_toList (s := text)]
    unfold parseInteger at h
    generalize text.toList = characters at h
    split at h
    · rename_i digits
      simp only [if_true, Option.filter_eq_some_iff, Option.map_eq_some_iff] at h
      obtain ⟨⟨k, hk, rfl⟩, hrange⟩ := h
      refine .negative (parseDigits_eq_some.mp hk) ?_
      have := (of_decide_eq_true hrange).1
      zify
      omega
    · cases signed <;>
        simp only [if_true, Bool.false_eq_true, if_false, Option.filter_eq_some_iff,
          Option.map_eq_some_iff, decide_eq_true_eq] at h
      · obtain ⟨⟨k, hk, rfl⟩, hrange⟩ := h
        exact .natural (parseDigits_eq_some.mp hk) (by exact_mod_cast hrange)
      · obtain ⟨⟨k, hk, rfl⟩, hrange⟩ := h
        exact .natural (parseDigits_eq_some.mp hk) (by exact_mod_cast hrange.2)
  · intro h
    have hpos : (0 : ℤ) < 2 ^ (bits - 1) := by positivity
    unfold parseInteger
    cases h with
    | @natural _ _ k digits decimal fits =>
      rw [String.toList_ofList]
      split
      · exact absurd rfl (decimal.ne_minus _)
      · zify at fits
        cases signed <;> simp_all [parseDigits_eq_some.mpr decimal, Option.filter]
        omega
    | @negative _ k digits decimal fits =>
      zify at fits
      simp [parseDigits_eq_some.mpr decimal, Option.filter]
      omega

omit [LT φ] [DecidableLT φ] in
theorem parse_eq_some {type : ValueType} {value : Value φ} :
    parse type text = some value ↔ Spells type text value := by
  cases type with
  | integer signed bits =>
    rw [parse, Option.map_eq_some_iff]
    constructor
    · rintro ⟨n, hn, rfl⟩
      exact parseInteger_eq_some.mp hn
    · intro h
      obtain ⟨n, rfl⟩ : ∃ n, value = .integer n := by cases h <;> exact ⟨_, rfl⟩
      exact ⟨n, parseInteger_eq_some.mpr h, rfl⟩
  | floating double =>
    rw [parse, Option.map_eq_some_iff]
    constructor
    · rintro ⟨x, hx, rfl⟩
      exact .floating hx
    · intro h
      cases h with
      | floating parsed => exact ⟨_, parsed, rfl⟩
  | boolean =>
    constructor
    · intro h
      rw [parse] at h
      split_ifs at h with htrue hfalse
      · obtain rfl := Option.some.inj h
        exact htrue ▸ .boolean true
      · obtain rfl := Option.some.inj h
        exact hfalse ▸ .boolean false
    · intro h
      cases h with
      | boolean value => cases value <;> rfl
  | string =>
    constructor
    · intro h
      obtain rfl := Option.some.inj h
      exact .string text
    · intro h
      cases h with
      | string => rfl

variable (keys : List String) (pairs : List Pair)

/-! ## The marks -/

/-- The marks after requests for the keys: a key's first pair is marked. -/
def marked : List String → List Pair → List (Pair × Bool)
  | _, [] => []
  | keys, pair :: rest =>
    (pair, decide (∃ key ∈ keys, pair.key = some key)) ::
      marked (keys.filter (pair.key ≠ some ·)) rest

theorem marked_nil : marked [] pairs = pairs.map (·, false) := by
  induction pairs with
  | nil => rfl
  | cons pair rest ih => simp [marked, ih]

theorem take_marked (key : String) : Reader.take key (marked keys pairs) =
      match pairs.find? (·.key = some key) with
      | none => some (none, marked (key :: keys) pairs)
      | some pair => if key ∈ keys then none
        else pair.value.map fun value => (some value, marked (key :: keys) pairs) := by
  induction pairs generalizing keys with
  | nil => rfl
  | cons pair rest ih =>
    by_cases hkey : pair.key = some key
    · by_cases hmem : key ∈ keys <;> simp [Reader.take, marked, hkey, hmem]
    · rw [marked, Reader.take, if_neg hkey, ih, find?_cons_of_neg (by simpa using hkey)]
      cases rest.find? (·.key = some key) with
      | none => simp [marked, hkey]
      | some found => by_cases hmem : key ∈ keys <;> simp [marked, hkey, hmem, Function.comp_def]

theorem marked_all : (∀ x ∈ marked keys pairs, x.2 = true) ↔
      (∀ pair ∈ pairs, ∃ key ∈ keys, pair.key = some key) ∧ (pairs.map (·.key)).Nodup := by
  induction pairs generalizing keys with
  | nil => simp [marked]
  | cons pair rest ih =>
    rw [marked, map_cons, nodup_cons, forall_mem_cons, forall_mem_cons, ih,
      decide_eq_true_eq, and_assoc]
    refine and_congr_right fun _ => ?_
    rw [← and_assoc]
    refine and_congr_left fun _ => ⟨fun h => ⟨fun q hq => ?_, fun hmem => ?_⟩, fun h q hq => ?_⟩
    · obtain ⟨key, hkey, heq⟩ := h q hq
      exact ⟨key, mem_of_mem_filter hkey, heq⟩
    · obtain ⟨q, hq, hsame⟩ := mem_map.mp hmem
      obtain ⟨key, hkey, heq⟩ := h q hq
      exact of_decide_eq_true (mem_filter.mp hkey).2 (hsame ▸ heq)
    · obtain ⟨key, hkey, heq⟩ := h.1 q hq
      refine ⟨key, mem_filter.mpr ⟨hkey, decide_eq_true fun hpair => h.2 ?_⟩, heq⟩
      exact mem_map.mpr ⟨q, hq, heq.trans hpair.symm⟩

/-! ## The requests -/

variable {request : Request φ}

theorem Request.assign_eq {value : Value φ} :
    request.assign text = (some value, none) ↔ request.Denotes text value := by
  cases request with
  | get key type =>
    rw [Denotes, ← parse_eq_some, assign]
    cases (parse type text : Option (Value φ)) <;> simp
  | getRanged key type minimum maximum =>
    rw [Denotes, ← parse_eq_some, assign]
    cases (parse type text : Option (Value φ)) with
    | none => simp
    | some read =>
      simp only [Prod.mk.injEq, Option.some.injEq, ite_eq_right_iff, reduceCtorEq, imp_false,
        Bool.or_eq_true, not_or]
      exact and_congr_right fun h => by rw [h]
  | getEnum key entries =>
    rw [assign]
    constructor
    · intro h
      split at h
      · cases h
      · next entry hfind =>
        obtain ⟨hentry, earlier, later, rfl, hearlier⟩ := find?_eq_some_iff_append.mp hfind
        obtain ⟨text', n⟩ := entry
        obtain rfl : text' = some text := of_decide_eq_true hentry
        exact ⟨earlier, n, later, rfl, by simpa using hearlier, by simpa using h.symm⟩
    · rintro ⟨earlier, n, later, rfl, hearlier, rfl⟩
      rw [find?_append, find?_eq_none.mpr (by simpa using hearlier)]
      simp

/-- A text is refused or denotes a value. -/
theorem Request.assign_accepted (h : (request.assign text).2 = none) :
    ∃ value, request.assign text = (some value, none) := by
  cases request with
  | get key type => cases hparse : (parse type text : Option (Value φ)) <;> simp_all [assign]
  | getRanged key type minimum maximum =>
    cases hparse : (parse type text : Option (Value φ)) <;> simp_all [assign]
  | getEnum key entries =>
    cases hfind : entries.find? (·.1 = some text) <;> simp_all [assign]

/-- A reader after requests for the keys. -/
def readerAfter : Reader := ⟨true, marked keys pairs, none⟩

/-- A request that succeeds after requests for the keys. -/
def Answers (request : Request φ) : Prop :=
  request.emptyRange = false ∧ ∀ pair ∈ pairs.find? (·.key = some request.key),
    request.key ∉ keys ∧ ∃ text ∈ pair.value, ∃ value, request.Denotes text value

theorem request_readerAfter (request : Request φ) :
    (Answers keys pairs request → ∃ output, Leaves pairs request output ∧
      (readerAfter keys pairs).request request =
        (output, readerAfter (request.key :: keys) pairs)) ∧
    (¬ Answers keys pairs request →
      ((readerAfter keys pairs).request request).2.failure ≠ none) := by
  unfold Answers Reader.request
  rw [if_neg (by simp [readerAfter])]
  cases hrange : request.emptyRange with
  | true => simp [Reader.fail, readerAfter]
  | false =>
    rw [if_neg (by simp), Reader.consume, if_pos (by rfl)]
    have htake := take_marked keys pairs request.key
    cases hfind : pairs.find? (·.key = some request.key) with
    | none =>
      rw [hfind] at htake
      simp only [find?_eq_none, decide_eq_true_eq] at hfind
      simpa [readerAfter, htake, Leaves] using hfind
    | some pair =>
      rw [hfind] at htake
      have hkey : pair.key = some request.key := by simpa using find?_some hfind
      by_cases hmem : request.key ∈ keys
      · simp [readerAfter, htake, hmem, Reader.fail]
      cases hvalue : pair.value with
      | none => simp [readerAfter, htake, hmem, hvalue, Reader.fail]
      | some text =>
        rcases hpair : request.assign text with ⟨value, _ | reason⟩
        · obtain ⟨value, hvalue'⟩ := Request.assign_accepted (congrArg Prod.snd hpair)
          have hdenotes := Request.assign_eq.mp hvalue'
          refine ⟨fun _ => ⟨some value, ⟨pair, mem_of_find?_eq_some hfind, hkey, text, hvalue,
            hdenotes⟩, ?_⟩, fun h => absurd ?_ h⟩
          · simp [readerAfter, htake, hmem, hvalue, hvalue']
          · simpa [hvalue, hmem] using ⟨value, hdenotes⟩
        · refine ⟨fun h => ?_, fun _ => by simp [readerAfter, htake, hmem, hvalue, hpair,
            Reader.fail]⟩
          obtain ⟨-, text', htext', value', hdenotes⟩ := h.2 pair rfl
          obtain rfl := Option.some.inj (hvalue.symm.trans htext')
          rw [Request.assign_eq.mpr hdenotes] at hpair
          cases hpair

theorem requests_of_failure {reader : Reader} (h : reader.failure ≠ none)
    (requests : List (Request φ)) : (reader.requests requests).2.failure ≠ none := by
  induction requests with
  | nil => exact h
  | cons request rest ih =>
    have hsame : reader.request request = (none, reader) :=
      if_pos (Option.isSome_iff_ne_none.mpr h)
    rw [Reader.requests, hsame]
    exact ih

/-- Every request succeeds, after requests for the keys. -/
def AnswersAll (requests : List (Request φ)) : Prop :=
  (∀ request ∈ requests, Answers keys pairs request) ∧
    requests.Pairwise fun r r' => r.key = r'.key → ∀ pair ∈ pairs, pair.key ≠ some r.key

theorem answers_cons (key : String) (request : Request φ) :
    Answers (key :: keys) pairs request ↔ Answers keys pairs request ∧
      (key = request.key → ∀ pair ∈ pairs, pair.key ≠ some key) := by
  unfold Answers
  cases hfind : pairs.find? (·.key = some request.key) with
  | none =>
    simp only [find?_eq_none, decide_eq_true_eq] at hfind
    simp +contextual [hfind]
  | some pair =>
    have hkey : pair.key = some request.key := by simpa using find?_some hfind
    have hmem := mem_of_find?_eq_some hfind
    simp only [Option.mem_def, Option.some.injEq, forall_eq', mem_cons, not_or]
    constructor
    · exact fun ⟨hrange, ⟨hne, hkeys⟩, hvalue⟩ =>
        ⟨⟨hrange, hkeys, hvalue⟩, fun h => absurd h.symm hne⟩
    · exact fun ⟨⟨hrange, hkeys, hvalue⟩, hne⟩ =>
        ⟨hrange, ⟨fun h => hne h.symm pair hmem (h ▸ hkey), hkeys⟩, hvalue⟩

theorem answersAll_cons (request : Request φ) (rest : List (Request φ)) :
    AnswersAll keys pairs (request :: rest) ↔
      Answers keys pairs request ∧ AnswersAll (request.key :: keys) pairs rest := by
  simp only [AnswersAll, answers_cons, forall_mem_cons, pairwise_cons, forall_and]
  tauto

theorem requests_readerAfter (requests : List (Request φ)) :
    (AnswersAll keys pairs requests → ∃ outputs, Forall₂ (Leaves pairs) requests outputs ∧
      (readerAfter keys pairs).requests requests =
        (outputs, readerAfter ((requests.map (·.key)).reverse ++ keys) pairs)) ∧
    (¬ AnswersAll keys pairs requests →
      ((readerAfter keys pairs).requests requests).2.failure ≠ none) := by
  induction requests generalizing keys with
  | nil => exact ⟨fun _ => ⟨[], .nil, rfl⟩, fun h => absurd (by simp [AnswersAll]) h⟩
  | cons request rest ih =>
    obtain ⟨hanswers, hfails⟩ := request_readerAfter keys pairs request
    obtain ⟨hrest, hrestFails⟩ := ih (request.key :: keys)
    rw [Reader.requests, answersAll_cons]
    by_cases h : Answers keys pairs request
    · obtain ⟨output, hleaves, hrequest⟩ := hanswers h
      rw [hrequest]
      refine ⟨fun hall => ?_, fun hall => hrestFails fun hlater => hall ⟨h, hlater⟩⟩
      obtain ⟨outputs, hall, hrequests⟩ := hrest hall.2
      exact ⟨output :: outputs, .cons hleaves hall, by simp [hrequests]⟩
    · exact ⟨fun hall => absurd hall.1 h, fun _ => requests_of_failure (hfails h) rest⟩

/-! ## Strictness -/

theorem finish_readerAfter : (readerAfter keys pairs).finish = none ↔
      (∀ pair ∈ pairs, ∃ key ∈ keys, pair.key = some key) ∧ (pairs.map (·.key)).Nodup := by
  rw [← marked_all]
  simp [Reader.finish, readerAfter]

theorem fits_iff (requests : List (Request φ)) :
    Fits pairs requests ↔ AnswersAll [] pairs requests ∧
      (readerAfter ((requests.map (·.key)).reverse ++ []) pairs).finish = none := by
  rw [AnswersAll, finish_readerAfter]
  constructor
  · intro fits
    refine ⟨⟨fun request hrequest => ⟨fits.ranges request hrequest, fun pair hpair => ?_⟩,
      fits.once⟩, fun pair hpair => ?_, fits.distinct⟩
    · exact ⟨not_mem_nil, fits.values request hrequest pair (mem_of_find?_eq_some hpair)
        (by simpa using find?_some hpair)⟩
    · obtain ⟨request, hrequest, hkey⟩ := fits.requested pair hpair
      exact ⟨request.key, by simpa using ⟨request, hrequest, rfl⟩, hkey⟩
  · rintro ⟨⟨hanswers, honce⟩, hrequested, hdistinct⟩
    refine ⟨fun request hrequest => (hanswers request hrequest).1, fun pair hpair => ?_, hdistinct,
      honce, fun request hrequest pair hpair hkey => ?_⟩
    · obtain ⟨key, hmem, hkey⟩ := hrequested pair hpair
      obtain ⟨request, hrequest, rfl⟩ : ∃ request ∈ requests, request.key = key := by
        simpa using hmem
      exact ⟨request, hrequest, hkey⟩
    · -- The keys are distinct, so the pair is the one that is found.
      obtain ⟨found, hfound⟩ := Option.isSome_iff_exists.mp
        (find?_isSome (p := (·.key = some request.key)) |>.mpr ⟨pair, hpair, decide_eq_true hkey⟩)
      have hsame : found = pair := inj_on_of_nodup_map hdistinct (mem_of_find?_eq_some hfound) hpair
        (((by simpa using find?_some hfound) : found.key = _).trans hkey.symm)
      exact ((hanswers request hrequest).2 pair (hsame ▸ hfound)).2

theorem finish_of_failure {reader : Reader} (h : reader.failure ≠ none) : reader.finish ≠ none := by
  simp [Reader.finish, h]

/-- Pairs without storage are never accepted. -/
theorem finish_unstored (count : ℕ) (requests : List (Request φ)) :
    ((Reader.new (some (.unstored (count + 1)))).requests requests).2.finish ≠ none := by
  cases requests with
  | nil => simp [Reader.requests, Reader.new, Reader.finish, View.pairs, replicate_succ]
  | cons request rest =>
    refine finish_of_failure (requests_of_failure ?_ rest)
    cases hrange : request.emptyRange <;>
      simp [Reader.request, Reader.new, Reader.consume, Reader.fail, hrange]

/-- The reader is strict and exact: `finish` succeeds exactly if the pairs and the requests fit,
and then every output holds what its text denotes; that of an absent key stays as it is. -/
theorem finish_iff (view : Option View) (requests : List (Request φ)) :
    let pairs := (view.map View.pairs).getD []
    let result := (Reader.new view).requests requests
    (result.2.finish = none ↔ Fits pairs requests) ∧
      (result.2.finish = none → Forall₂ (Leaves pairs) requests result.1) := by
  intro pairs result
  by_cases hstored : Reader.new view = readerAfter [] pairs
  · obtain ⟨hanswers, hfails⟩ := requests_readerAfter [] pairs requests
    rw [fits_iff]
    simp only [result, hstored]
    by_cases h : AnswersAll [] pairs requests
    · obtain ⟨outputs, hleaves, hrequests⟩ := hanswers h
      rw [hrequests]
      exact ⟨(and_iff_right h).symm, fun _ => hleaves⟩
    · have hfailed := finish_of_failure (hfails h)
      exact ⟨iff_of_false hfailed fun hall => h hall.1, fun hfinish => absurd hfinish hfailed⟩
  · obtain ⟨count, rfl⟩ : ∃ count, view = some (.unstored (count + 1)) := by
      rcases view with _ | pairs | _ | count <;>
        simp_all [pairs, Reader.new, readerAfter, marked_nil, View.pairs]
    have hfailed := finish_unstored count requests
    refine ⟨iff_of_false hfailed fun fits => ?_, fun hfinish => absurd hfinish hfailed⟩
    obtain ⟨request, -, hkey⟩ := fits.requested ⟨none, none⟩ (by simp [pairs, View.pairs])
    cases hkey

end

end Coccl.ConfigReader
