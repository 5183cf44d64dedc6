import Sequencer.Json.Printer
import Sequencer.Proofs.Json.Reader

/-!
JSON text is read as the document it was written from, where the document has no real numbers and
each of its leaves stands for a value.
-/

namespace Sequencer

namespace Json

/-! ### Strings -/

theorem unit?_controlDigits {n : Nat} (h : n < 0x20) :
    unit? '0' '0' (Nat.digitChar (n / 16)) (Nat.digitChar (n % 16)) = some n := by
  have hall : ∀ n < 0x20,
      unit? '0' '0' (Nat.digitChar (n / 16)) (Nat.digitChar (n % 16)) = some n := by decide
  exact hall n h

theorem pieces?_unit {a b c d : Char} {n : Nat} (h : unit? a b c d = some n) (text : List Char) :
    pieces? ('\\' :: 'u' :: a :: b :: c :: d :: text) =
      (pieces? text).map fun (pieces, rest) => (.unit n :: pieces, rest) := by
  rw [pieces?, h]
  cases pieces? text <;> rfl

theorem pieces?_escape {e c : Char} (he : e ≠ 'u') (h : escape? e = some c) (text : List Char) :
    pieces? ('\\' :: e :: text) =
      (pieces? text).map fun (pieces, rest) => (.char c :: pieces, rest) := by
  rw [pieces?, h]
  . cases pieces? text <;> rfl
  . simp [he]

theorem pieces?_plain {c : Char} (hquote : c ≠ '\x22') (hslash : c ≠ '\\')
    (hlow : ¬ c.toNat < 0x20) (text : List Char) :
    pieces? (c :: text) =
      (pieces? text).map fun (pieces, rest) => (.char c :: pieces, rest) := by
  rw [pieces?, if_neg (not_or.mpr ⟨hlow, hslash⟩)]
  . cases pieces? text <;> rfl
  . exact hquote
  . simp [hslash]
  . simp [hslash]

theorem pieces?_escapeChar (c : Char) :
    ∃ piece, (∀ text, pieces? (escapeChar c ++ text) =
        (pieces? text).map fun (pieces, rest) => (piece :: pieces, rest)) ∧
      ∀ pieces, Piece.join? (piece :: pieces) = (Piece.join? pieces).map (c :: ·) := by
  fun_cases escapeChar c with
  | case8 c _ _ _ _ _ _ _ hlow =>
    -- a control character without a letter of its own is written as a unit
    refine ⟨.unit c.toNat, pieces?_unit (unit?_controlDigits hlow), ?_⟩
    intro pieces
    have hunit : c.toNat < 0xD800 ∨ 0xDFFF < c.toNat := by omega
    rw [Piece.join?.eq_def]
    simp only [hunit, ↓reduceIte, Char.ofNat_toNat]
  | case9 c hquote hslash _ _ _ _ _ hlow =>
    exact ⟨.char c, pieces?_plain hquote hslash hlow, fun _ => rfl⟩
  | _ => exact ⟨.char _, pieces?_escape (by decide) rfl, fun _ => rfl⟩

theorem pieces?_flatMap_escapeChar (chars rest : List Char) :
    ∃ pieces, pieces? (chars.flatMap escapeChar ++ '\x22' :: rest) = some (pieces, rest) ∧
      Piece.join? pieces = some chars := by
  induction chars with
  | nil => exact ⟨[], rfl, rfl⟩
  | cons c chars ih =>
    obtain ⟨pieces, hpieces, hjoin⟩ := ih
    obtain ⟨piece, hread, hchar⟩ := pieces?_escapeChar c
    refine ⟨piece :: pieces, ?_, ?_⟩
    . rw [List.flatMap_cons, List.append_assoc, hread, hpieces, Option.map_some]
    . rw [hchar, hjoin, Option.map_some]

theorem toList_quoted (s : String) :
    (quoted s).toList = '\x22' :: (s.toList.flatMap escapeChar ++ ['\x22']) := by
  rw [quoted, String.toList_ofList, List.cons_append]

theorem string?_flatMap_escapeChar (s : String) (rest : List Char) :
    string? (s.toList.flatMap escapeChar ++ '\x22' :: rest) = some (some s, rest) := by
  obtain ⟨pieces, hpieces, hjoin⟩ := pieces?_flatMap_escapeChar s.toList rest
  simp [string?, hpieces, hjoin]

/-! ### Numbers -/

def decimal (n : Nat) : List Nat :=
  (Nat.toDigits 10 n).map fun c => c.toNat - '0'.toNat

theorem decimal_of_lt {n : Nat} (h : n < 10) : decimal n = [n] := by
  rw [decimal, Nat.toDigits_of_lt_base h, List.map_singleton]
  exact congrArg (fun d => [d]) (Nat.toNat_digitChar_sub_48_of_lt_ten h)

theorem decimal_of_le {n : Nat} (h : 10 ≤ n) : decimal n = decimal (n / 10) ++ [n % 10] := by
  have hlast : (Nat.digitChar (n % 10)).toNat - '0'.toNat = n % 10 :=
    Nat.toNat_digitChar_sub_48_of_lt_ten (Nat.mod_lt _ (by decide))
  rw [decimal, Nat.toDigits_of_base_le (by decide) h, List.map_append, List.map_singleton, hlast,
    decimal]

theorem foldl_decimal (n : Nat) : (decimal n).foldl (fun n d => n * 10 + d) 0 = n := by
  induction n using Nat.strongRecOn with
  | ind n ih =>
    by_cases h : n < 10
    . rw [decimal_of_lt h, List.foldl_cons, List.foldl_nil, Nat.zero_mul, Nat.zero_add]
    . rw [decimal_of_le (by omega), List.foldl_append, ih (n / 10) (by omega), List.foldl_cons,
        List.foldl_nil]
      omega

theorem head?_decimal {n : Nat} (h : 0 < n) : (decimal n).head? ≠ some 0 := by
  induction n using Nat.strongRecOn with
  | ind n ih =>
    by_cases hlt : n < 10
    . rw [decimal_of_lt hlt]
      simp only [List.head?_cons, ne_eq, Option.some.injEq]
      omega
    . have hfront : decimal (n / 10) ≠ [] := by simp [decimal, Nat.toDigits_ne_nil]
      rw [decimal_of_le (by omega), List.head?_append_of_ne_nil _ hfront]
      exact ih (n / 10) (by omega) (by omega)

def EndsNumber (rest : List Char) : Prop :=
  ∀ c ∈ rest.head?, c.isDigit = false ∧ c ≠ '.' ∧ c ≠ 'e' ∧ c ≠ 'E'

theorem endsNumber_cons {c : Char} (h : c = ',' ∨ c = ']' ∨ c = '\x7d') (rest : List Char) :
    EndsNumber (c :: rest) := by
  rintro _ ⟨⟩
  rcases h with rfl | rfl | rfl <;> decide

theorem digits_toDigits (n : Nat) {rest : List Char} (hrest : EndsNumber rest) :
    digits (Nat.toDigits 10 n ++ rest) = (decimal n, rest) := by
  have hdigit : ∀ c ∈ Nat.toDigits 10 n, c.isDigit = true := fun c hc =>
    Nat.isDigit_of_mem_toDigits (by decide) (by decide) hc
  have hend : rest.takeWhile Char.isDigit = [] ∧ rest.dropWhile Char.isDigit = rest := by
    cases rest with
    | nil => exact ⟨rfl, rfl⟩
    | cons c rest => simp [(hrest c rfl).1]
  have hvalues : (Nat.toDigits 10 n).filterMap digit? = decimal n := by
    rw [decimal, ← List.filterMap_eq_map]
    exact List.filterMap_congr fun c hc => if_pos (hdigit c hc)
  rw [digits, List.takeWhile_append_of_pos hdigit, List.dropWhile_append_of_pos hdigit, hend.1,
    hend.2, List.append_nil, hvalues]

theorem whole?_toDigits (n : Nat) {rest : List Char} (hrest : EndsNumber rest) :
    whole? (Nat.toDigits 10 n ++ rest) = some (decimal n, rest) := by
  have hsome : someDigits? (Nat.toDigits 10 n ++ rest) = some (decimal n, rest) := by
    have hne : decimal n ≠ [] := by simp [decimal, Nat.toDigits_ne_nil]
    rw [someDigits?, digits_toDigits n hrest]
    split
    . next heq => simp_all
    . rfl
  have hzero : ¬ ((decimal n).head? = some 0 ∧ (decimal n).length ≠ 1) := by
    rintro ⟨hhead, hlength⟩
    cases n with
    | zero => exact hlength (by rw [decimal_of_lt (by decide)]; rfl)
    | succ n => exact head?_decimal (Nat.succ_pos n) hhead
  simp [whole?, hsome, hzero]

theorem fraction?_of_endsNumber {rest : List Char} (h : EndsNumber rest) :
    fraction? rest = some (none, rest) := by
  rw [fraction?.eq_def]
  split
  . exact absurd rfl (h '.' rfl).2.1
  . rfl

theorem exponent?_of_endsNumber {rest : List Char} (h : EndsNumber rest) :
    exponent? rest = some (none, rest) := by
  cases rest with
  | nil => rfl
  | cons c rest =>
    obtain ⟨-, -, he, hE⟩ := h c rfl
    simp [exponent?, he, hE]

theorem le_foldl_digits (significand : Nat) (digits : List Nat) :
    significand ≤ digits.foldl (fun n d => n * 10 + d) significand := by
  induction digits generalizing significand with
  | nil => exact Nat.le_refl _
  | cons d ds ih =>
    have := ih (significand * 10 + d)
    rw [List.foldl_cons]
    omega

theorem leading_of_lt {significand : Nat} {digits : List Nat}
    (h : digits.foldl (fun n d => n * 10 + d) significand < NumberText.limit) :
    NumberText.leading significand digits =
      (digits.foldl (fun n d => n * 10 + d) significand, 0) := by
  induction digits generalizing significand with
  | nil => rfl
  | cons d ds ih =>
    rw [List.foldl_cons] at h ⊢
    have hfits : significand * 10 + d < NumberText.limit :=
      Nat.lt_of_le_of_lt (le_foldl_digits _ ds) h
    rw [NumberText.leading, if_pos hfits, ih h]

theorem exists_toDigits_eq_cons (n : Nat) :
    ∃ c cs, Nat.toDigits 10 n = c :: cs ∧ c.isDigit = true := by
  cases h : Nat.toDigits 10 n with
  | nil => exact absurd h Nat.toDigits_ne_nil
  | cons c cs =>
    have hmem : c ∈ Nat.toDigits 10 n := by rw [h]; exact List.mem_cons_self ..
    exact ⟨c, cs, rfl, Nat.isDigit_of_mem_toDigits (by decide) (by decide) hmem⟩

theorem numberText?_toDigits (n : Nat) {rest : List Char} (hrest : EndsNumber rest) :
    numberText? (Nat.toDigits 10 n ++ rest) = some (⟨false, decimal n, none, none⟩, rest) := by
  have hwhole := whole?_toDigits n hrest
  obtain ⟨c, cs, hdigits, hdigit⟩ := exists_toDigits_eq_cons n
  have hminus : c ≠ '-' := by
    rintro rfl
    exact absurd hdigit (by decide)
  rw [hdigits, List.cons_append] at hwhole ⊢
  simp [numberText?, hminus, hwhole, fraction?_of_endsNumber hrest, exponent?_of_endsNumber hrest]

theorem numberText?_minus (n : Nat) {rest : List Char} (hrest : EndsNumber rest) :
    numberText? ('-' :: (Nat.toDigits 10 n ++ rest)) =
      some (⟨true, decimal n, none, none⟩, rest) := by
  simp [numberText?, whole?_toDigits n hrest, fraction?_of_endsNumber hrest,
    exponent?_of_endsNumber hrest]

theorem toList_toString_ofNat (n : Nat) : (toString (n : Int)).toList = Nat.toDigits 10 n := by
  rw [Int.toString_eq_repr, Int.repr_eq_if, if_pos (Int.natCast_nonneg n), Int.toNat_natCast,
    Nat.repr_eq_ofList_toDigits, String.toList_ofList]

theorem toList_toString_neg {n : Nat} (h : 0 < n) :
    (toString (-n : Int)).toList = '-' :: Nat.toDigits 10 n := by
  rw [Int.toString_eq_repr, Int.repr_eq_if, if_neg (by omega), Int.neg_neg, Int.toNat_natCast,
    Nat.repr_eq_ofList_toDigits, String.toList_append, String.toList_ofList]
  simp

theorem leading_decimal {n : Nat} (h : n < NumberText.limit) :
    NumberText.leading 0 (decimal n) = (n, 0) := by
  rw [leading_of_lt (by rwa [foldl_decimal]), foldl_decimal]

theorem number?_ofNat {n : Nat} (h : n < Number.unsignedBound) :
    NumberText.number? ⟨false, decimal n, none, none⟩ = some (.integer n) := by
  simp [NumberText.number?, leading_decimal h]

theorem number?_neg {n : Nat} (hpos : 0 < n) (h : n ≤ Number.signedBound) :
    NumberText.number? ⟨true, decimal n, none, none⟩ = some (.integer (-n)) := by
  have hlimit : n < NumberText.limit := Nat.lt_of_le_of_lt h (by decide)
  simp [NumberText.number?, leading_decimal hlimit, hpos, h]

def InRange (n : Int) : Prop :=
  -Number.signedBound ≤ n ∧ n < Number.unsignedBound

instance (n : Int) : Decidable (InRange n) :=
  inferInstanceAs (Decidable (_ ∧ _))

theorem numberText?_toString {n : Int} (h : InRange n) {rest : List Char}
    (hrest : EndsNumber rest) :
    ∃ written, numberText? ((toString n).toList ++ rest) = some (written, rest) ∧
      written.number? = some (.integer n) := by
  obtain ⟨hlow, hhigh⟩ := h
  obtain ⟨m, rfl | rfl⟩ := n.eq_nat_or_neg
  . refine ⟨_, ?_, number?_ofNat (Int.ofNat_lt.mp hhigh)⟩
    rw [toList_toString_ofNat, numberText?_toDigits m hrest]
  . by_cases hm : m = 0
    . -- zero has no sign in front, with one it would be read as a real
      subst hm
      exact ⟨_, numberText?_toDigits 0 hrest, number?_ofNat (by decide)⟩
    . have hpos : 0 < m := Nat.pos_of_ne_zero hm
      refine ⟨_, ?_, number?_neg hpos (by omega)⟩
      rw [toList_toString_neg hpos, List.cons_append, numberText?_minus m hrest]

theorem exists_toString_eq_cons (n : Int) :
    ∃ c cs, (toString n).toList = c :: cs ∧ (c = '-' ∨ c.isDigit = true) := by
  obtain ⟨m, rfl | rfl⟩ := n.eq_nat_or_neg
  . obtain ⟨c, cs, hdigits, hdigit⟩ := exists_toDigits_eq_cons m
    exact ⟨c, cs, by rw [toList_toString_ofNat, hdigits], .inr hdigit⟩
  . by_cases hm : m = 0
    . subst hm
      exact ⟨'0', [], rfl, .inr rfl⟩
    . exact ⟨'-', _, toList_toString_neg (Nat.pos_of_ne_zero hm), .inl rfl⟩

/-! ### Values -/

namespace Document

inductive Whole : Document → Prop
  | null : Whole .null
  | bool (b : Bool) : Whole (.bool b)
  | integer {n : Int} (h : InRange n) : Whole (.integer n)
  | text (s : String) : Whole (.text s)
  | array {items : List Document} (h : ∀ d ∈ items, Whole d) : Whole (.array items)
  | record {fields : List (String × Document)} (h : ∀ field ∈ fields, Whole field.2) :
    Whole (.record fields)

def separated (texts : List (List Char)) : List Char :=
  List.intercalate [','] texts

theorem separated_singleton (text : List Char) : separated [text] = text :=
  List.intercalate_singleton

theorem separated_cons_cons (text next : List Char) (texts : List (List Char)) :
    separated (text :: next :: texts) = text ++ ',' :: separated (next :: texts) := by
  rw [separated, List.intercalate_cons_cons, List.append_assoc, List.singleton_append, separated]

def chars (d : Document) : List Char :=
  d.render.toList

def memberChars (field : String × Document) : List Char :=
  (quoted field.1).toList ++ ':' :: field.2.chars

theorem chars_array (items : List Document) :
    (array items).chars = '[' :: (separated (items.map chars) ++ [']']) := by
  have hitems : renderItems items = items.map render := by
    induction items with
    | nil => rfl
    | cons d rest ih => rw [renderItems, ih, List.map_cons]
  have hchars : (items.map render).map String.toList = items.map chars := by
    rw [List.map_map]
    rfl
  simp [chars, render, hitems, separated, String.toList_intercalate, hchars, -List.map_map]

theorem chars_record (fields : List (String × Document)) :
    (record fields).chars =
      '\x7b' :: (separated (fields.map memberChars) ++ ['\x7d']) := by
  have hfields : (renderMembers (fields.map fun field => (some field.1, field.2))).map
      String.toList = fields.map memberChars := by
    induction fields with
    | nil => rfl
    | cons field rest ih => simp [renderMembers, ih, memberChars, chars]
  have hrecord : record fields = object (fields.map fun field => (some field.1, field.2)) := rfl
  simp [chars, hrecord, render, separated, String.toList_intercalate, hfields]

theorem skipBlanks_cons {c : Char} (h : isBlank c = false) (rest : List Char) :
    skipBlanks (c :: rest) = c :: rest := by
  simp [skipBlanks, h]

theorem not_isBlank_of_number {c : Char} (h : c = '-' ∨ c.isDigit = true) : isBlank c = false := by
  rcases h with rfl | h
  . rfl
  . rw [Bool.eq_false_iff]
    intro hblank
    simp only [isBlank, Bool.or_eq_true, decide_eq_true_eq] at hblank
    rcases hblank with ((rfl | rfl) | rfl) | rfl <;> exact absurd h (by decide)

theorem valueText?_number {c : Char} (h : c = '-' ∨ c.isDigit = true) (fuel : Nat)
    (rest : List Char) :
    valueText? (fuel + 1) (c :: rest) =
      (numberText? (c :: rest)).map fun (written, rest) => (.number written.number?, rest) := by
  have hother : c ≠ '\x22' ∧ c ≠ '[' ∧ c ≠ '\x7b' ∧ c ≠ 'n' ∧ c ≠ 't' ∧ c ≠ 'f' := by
    refine ⟨?_, ?_, ?_, ?_, ?_, ?_⟩ <;> (rintro rfl; revert h; decide)
  obtain ⟨hquote, hbracket, hbrace, hn, ht, hf⟩ := hother
  cases hread : numberText? (c :: rest) <;>
    simp [valueText?, skipBlanks_cons (not_isBlank_of_number h), hquote, hbracket, hbrace, hn, ht,
      hf, hread]

theorem exists_chars_eq_cons {d : Document} (h : d.Whole) :
    ∃ c cs, d.chars = c :: cs ∧ isBlank c = false ∧ c ≠ ']' := by
  cases h with
  | null => exact ⟨'n', _, rfl, rfl, by decide⟩
  | bool b => cases b <;> exact ⟨_, _, rfl, rfl, by decide⟩
  | @integer n h =>
    obtain ⟨c, cs, htext, hc⟩ := exists_toString_eq_cons n
    refine ⟨c, cs, htext, not_isBlank_of_number hc, ?_⟩
    rintro rfl
    revert hc
    decide
  | text s => exact ⟨_, _, toList_quoted s, rfl, by decide⟩
  | array h => exact ⟨_, _, chars_array _, rfl, by decide⟩
  | record h => exact ⟨_, _, chars_record _, rfl, by decide⟩

/--
The text of the document is read as the document, whatever follows. A value takes one step and each
item or member another, so two steps for every character are enough.
-/
def Legible (d : Document) : Prop :=
  ∀ fuel rest, 2 * d.chars.length ≤ fuel → EndsNumber rest →
    valueText? fuel (d.chars ++ rest) = some (d, rest)

theorem legible_of_cons {d : Document} {c : Char} {cs : List Char} (hchars : d.chars = c :: cs)
    (h : ∀ fuel rest, 2 * cs.length + 1 ≤ fuel → EndsNumber rest →
      valueText? (fuel + 1) (c :: (cs ++ rest)) = some (d, rest)) : d.Legible := by
  intro fuel rest hfuel hrest
  rw [hchars] at hfuel ⊢
  cases fuel with
  | zero => simp at hfuel
  | succ fuel =>
    apply h fuel rest _ hrest
    rw [List.length_cons] at hfuel
    omega

theorem itemTexts?_separated {d : Document} {items : List Document}
    (h : ∀ e ∈ d :: items, e.Legible) {fuel : Nat} {rest : List Char}
    (hfuel : 2 * (separated ((d :: items).map chars)).length < fuel) :
    itemTexts? fuel (separated ((d :: items).map chars) ++ ']' :: rest) =
      some (d :: items, rest) := by
  induction items generalizing d fuel with
  | nil =>
    obtain ⟨fuel, rfl⟩ := Nat.exists_eq_succ_of_ne_zero (Nat.ne_zero_of_lt hfuel)
    rw [List.map_singleton, separated_singleton] at hfuel ⊢
    have hvalue := h d (List.mem_cons_self ..) fuel _ (Nat.le_of_lt_succ hfuel)
      (endsNumber_cons (.inr (.inl rfl)) rest)
    rw [itemTexts?, hvalue]
    rfl
  | cons e items ih =>
    obtain ⟨fuel, rfl⟩ := Nat.exists_eq_succ_of_ne_zero (Nat.ne_zero_of_lt hfuel)
    rw [List.forall_mem_cons] at h
    rw [List.map_cons, List.map_cons, separated_cons_cons, List.length_append,
      List.length_cons] at hfuel
    rw [List.map_cons, List.map_cons, separated_cons_cons, List.append_assoc, List.cons_append]
    -- the comma ends the item even if that is a number
    have hvalue := h.1 fuel _ (by omega) (endsNumber_cons (.inl rfl)
      (separated ((e :: items).map chars) ++ ']' :: rest))
    have hitems : itemTexts? fuel (separated ((e :: items).map chars) ++ ']' :: rest) =
        some (e :: items, rest) := ih h.2 (by rw [List.map_cons]; omega)
    rw [List.map_cons] at hvalue hitems
    rw [itemTexts?, hvalue]
    simp [skipBlanks_cons, isBlank, hitems]

theorem memberChars_eq (field : String × Document) :
    memberChars field =
      '\x22' :: (field.1.toList.flatMap escapeChar ++ '\x22' :: ':' :: field.2.chars) := by
  simp [memberChars, toList_quoted]

theorem length_chars_lt_memberChars (field : String × Document) :
    field.2.chars.length < (memberChars field).length := by
  rw [memberChars, List.length_append, List.length_cons]
  omega

theorem memberTexts?_last {field : String × Document} {fuel : Nat} {rest : List Char}
    (hvalue : valueText? fuel (field.2.chars ++ '\x7d' :: rest) =
      some (field.2, '\x7d' :: rest)) :
    memberTexts? (fuel + 1) (memberChars field ++ '\x7d' :: rest) =
      some ([(some field.1, field.2)], rest) := by
  rw [memberChars_eq, List.cons_append, List.append_assoc, memberTexts?]
  simp [skipBlanks_cons, isBlank, string?_flatMap_escapeChar, hvalue]

theorem memberTexts?_comma {field : String × Document} {fuel : Nat} {rest : List Char}
    (hvalue : valueText? fuel (field.2.chars ++ ',' :: rest) = some (field.2, ',' :: rest)) :
    memberTexts? (fuel + 1) (memberChars field ++ ',' :: rest) =
      (memberTexts? fuel rest).map fun (members, rest) =>
        ((some field.1, field.2) :: members, rest) := by
  rw [memberChars_eq, List.cons_append, List.append_assoc, memberTexts?]
  cases hrest : memberTexts? fuel rest <;>
    simp [skipBlanks_cons, isBlank, string?_flatMap_escapeChar, hvalue, hrest]

theorem memberTexts?_separated {field : String × Document} {fields : List (String × Document)}
    (h : ∀ other ∈ field :: fields, other.2.Legible) {fuel : Nat} {rest : List Char}
    (hfuel : 2 * (separated ((field :: fields).map memberChars)).length < fuel) :
    memberTexts? fuel (separated ((field :: fields).map memberChars) ++ '\x7d' :: rest) =
      some ((field :: fields).map fun (k, d) => (some k, d), rest) := by
  induction fields generalizing field fuel with
  | nil =>
    obtain ⟨fuel, rfl⟩ := Nat.exists_eq_succ_of_ne_zero (Nat.ne_zero_of_lt hfuel)
    rw [List.map_singleton, separated_singleton] at hfuel ⊢
    have hlength := length_chars_lt_memberChars field
    have hvalue := h field (List.mem_cons_self ..) fuel _ (by omega)
      (endsNumber_cons (.inr (.inr rfl)) rest)
    rw [memberTexts?_last hvalue]
    rfl
  | cons next fields ih =>
    obtain ⟨fuel, rfl⟩ := Nat.exists_eq_succ_of_ne_zero (Nat.ne_zero_of_lt hfuel)
    rw [List.forall_mem_cons] at h
    rw [List.map_cons, List.map_cons, separated_cons_cons, List.length_append,
      List.length_cons] at hfuel
    rw [List.map_cons, List.map_cons, separated_cons_cons, List.append_assoc, List.cons_append]
    have hlength := length_chars_lt_memberChars field
    have hvalue := h.1 fuel _ (by omega) (endsNumber_cons (.inl rfl)
      (separated ((next :: fields).map memberChars) ++ '\x7d' :: rest))
    have hmembers : memberTexts? fuel
        (separated ((next :: fields).map memberChars) ++ '\x7d' :: rest) =
          some ((next :: fields).map fun (k, d) => (some k, d), rest) :=
      ih h.2 (by rw [List.map_cons]; omega)
    rw [List.map_cons] at hvalue hmembers
    rw [memberTexts?_comma hvalue, hmembers]
    rfl

theorem exists_separated_eq_cons (c : Char) (cs : List Char) (texts : List (List Char)) :
    ∃ more, separated ((c :: cs) :: texts) = c :: more := by
  cases texts with
  | nil => exact ⟨cs, separated_singleton _⟩
  | cons text texts => exact ⟨_, separated_cons_cons _ _ _⟩

theorem valueText?_array {c : Char} (hblank : isBlank c = false) (hclose : c ≠ ']') (fuel : Nat)
    (text : List Char) :
    valueText? (fuel + 1) ('[' :: c :: text) =
      (itemTexts? fuel (c :: text)).map fun (items, rest) => (.array items, rest) := by
  rw [valueText?, skipBlanks_cons (by decide)]
  cases h : itemTexts? fuel (c :: text) <;> simp [skipBlanks_cons hblank, hclose, h]

theorem valueText?_object (fuel : Nat) (text : List Char) :
    valueText? (fuel + 1) ('\x7b' :: '\x22' :: text) =
      (memberTexts? fuel ('\x22' :: text)).map fun (members, rest) => (.object members, rest) := by
  rw [valueText?, skipBlanks_cons (by decide)]
  cases h : memberTexts? fuel ('\x22' :: text) <;> simp [skipBlanks_cons, isBlank, h]

theorem Whole.legible {d : Document} (h : d.Whole) : d.Legible := by
  induction h with
  | null => exact legible_of_cons rfl fun _ _ _ _ => rfl
  | bool b =>
    cases b with
    | false => exact legible_of_cons rfl fun _ _ _ _ => rfl
    | true => exact legible_of_cons rfl fun _ _ _ _ => rfl
  | @integer n h =>
    obtain ⟨c, cs, htext, hc⟩ := exists_toString_eq_cons n
    refine legible_of_cons htext fun fuel rest _ hrest => ?_
    obtain ⟨written, hwritten, hnumber⟩ := numberText?_toString h hrest
    rw [htext, List.cons_append] at hwritten
    rw [valueText?_number hc, hwritten, Option.map_some]
    simp [hnumber, Document.integer]
  | text s =>
    refine legible_of_cons (toList_quoted s) fun fuel rest _ _ => ?_
    rw [List.append_assoc, List.singleton_append]
    simp [valueText?, skipBlanks_cons, isBlank, string?_flatMap_escapeChar, Document.text]
  | @array items h ih =>
    refine legible_of_cons (chars_array items) fun fuel rest hfuel _ => ?_
    cases items with
    | nil => rfl
    | cons d items =>
      obtain ⟨c, cs, hchars, hblank, hclose⟩ := exists_chars_eq_cons (h d (List.mem_cons_self ..))
      obtain ⟨more, hmore⟩ := exists_separated_eq_cons c cs (items.map chars)
      have hitems : itemTexts? fuel (separated ((d :: items).map chars) ++ ']' :: rest) =
          some (d :: items, rest) :=
        itemTexts?_separated ih (by rw [List.length_append] at hfuel; omega)
      rw [List.append_assoc, List.singleton_append]
      rw [List.map_cons, hchars, hmore, List.cons_append] at hitems ⊢
      rw [valueText?_array hblank hclose, hitems, Option.map_some]
  | @record fields h ih =>
    refine legible_of_cons (chars_record fields) fun fuel rest hfuel _ => ?_
    cases fields with
    | nil => rfl
    | cons field fields =>
      have hmembers : memberTexts? fuel
          (separated ((field :: fields).map memberChars) ++ '\x7d' :: rest) =
            some ((field :: fields).map fun (k, d) => (some k, d), rest) :=
        memberTexts?_separated ih (by rw [List.length_append] at hfuel; omega)
      obtain ⟨more, hmore⟩ := exists_separated_eq_cons '\x22' (field.1.toList.flatMap escapeChar ++
        '\x22' :: ':' :: field.2.chars) (fields.map memberChars)
      rw [List.append_assoc, List.singleton_append]
      rw [List.map_cons, memberChars_eq, hmore, List.cons_append] at hmembers ⊢
      rw [valueText?_object, hmembers, Option.map_some]
      rfl

theorem parse?_render {d : Document} (h : d.Whole) : parse? d.render = some d := by
  have hread := h.legible (2 * d.chars.length + 1) [] (by omega) (by simp [EndsNumber])
  rw [List.append_nil] at hread
  simp only [parse?]
  rw [← chars, hread]
  rfl

end Document

end Json

end Sequencer
