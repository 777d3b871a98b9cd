/-
Text, as Rust's `str` methods see it.

A `str` is modelled by its characters.  The methods here are the ones whose meaning
is not already a function on lists: trimming, splitting into components, reading a
number, and the passage to and from UTF-8, where Lean's own encoder and decoder are
used.  Each has the one lemma that says what it does to text built to be read by it.
-/
import Mathlib

namespace Amaterasu

/-- The characters of a `str`. -/
abbrev Text := List Char

namespace Text

/-- A text split at the first character of a kind. -/
theorem exists_first {p : Char → Bool} {s : Text} (h : ∃ c ∈ s, p c = true) :
    ∃ before c after, s = before ++ c :: after ∧ (∀ d ∈ before, p d = false) ∧ p c = true := by
  induction s with
  | nil =>
      obtain ⟨c, hc, -⟩ := h
      exact absurd hc List.not_mem_nil
  | cons c s ih =>
      by_cases hc : p c = true
      · exact ⟨[], c, s, rfl, by simp, hc⟩
      · obtain ⟨d, hd, hp⟩ := h
        rcases List.mem_cons.mp hd with rfl | hd
        · exact absurd hp hc
        · obtain ⟨before, e, after, rfl, hbefore, he⟩ := ih ⟨d, hd, hp⟩
          refine ⟨c :: before, e, after, rfl, ?_, he⟩
          intro x hx
          rcases List.mem_cons.mp hx with rfl | hx
          · exact Bool.eq_false_iff.mpr hc
          · exact hbefore x hx

/-- A run of characters of a kind, up to one that is none. -/
theorem takeWhile_run {p : Char → Bool} {t rest : Text} (ht : ∀ c ∈ t, p c = true)
    (hrest : ∀ c ∈ rest.head?, p c = false) :
    (t ++ rest).takeWhile p = t ∧ (t ++ rest).dropWhile p = rest := by
  rw [List.takeWhile_append_of_pos ht, List.dropWhile_append_of_pos ht]
  cases rest with
  | nil => exact ⟨List.append_nil t, rfl⟩
  | cons c rest =>
      have hc : ¬ p c = true := by rw [hrest c rfl]; decide
      rw [List.takeWhile_cons_of_neg hc, List.dropWhile_cons_of_neg hc, List.append_nil]
      exact ⟨rfl, rfl⟩

theorem dropWhile_head? {p : Char → Bool} (t : Text) :
    ∀ c ∈ (t.dropWhile p).head?, p c = false := by
  intro c hc
  have hnone := List.head?_dropWhile_not p t
  rw [hc] at hnone
  simpa using hnone

/-! ### Trimming -/

/-- `char::is_whitespace`: the Unicode property `White_Space`. -/
def isWhitespace (c : Char) : Bool :=
  let n := c.toNat
  (9 ≤ n && n ≤ 13) || n == 0x20 || n == 0x85 || n == 0xA0 || n == 0x1680 ||
    (0x2000 ≤ n && n ≤ 0x200A) || n == 0x2028 || n == 0x2029 || n == 0x202F ||
    n == 0x205F || n == 0x3000

/-- `trim_matches`. -/
def trimMatches (p : Char → Bool) (s : Text) : Text := (s.dropWhile p).rdropWhile p

/-- `trim`. -/
def trim (s : Text) : Text := trimMatches isWhitespace s

/-- `trim_start_matches` with a pattern of two characters. -/
def trimStartMatches (a b : Char) : Text → Text
  | x :: y :: rest => if x = a ∧ y = b then trimStartMatches a b rest else x :: y :: rest
  | s => s

theorem dropWhile_append {p : Char → Bool} {l s : Text} (hl : ∀ c ∈ l, p c = true)
    (hs : ∀ c ∈ s.head?, p c = false) : (l ++ s).dropWhile p = s := by
  induction l with
  | nil =>
      rcases s with - | ⟨c, s⟩
      · rfl
      · rw [List.nil_append, List.dropWhile_cons_of_neg]
        simp [hs c rfl]
  | cons c l ih =>
      rw [List.cons_append, List.dropWhile_cons_of_pos (hl c List.mem_cons_self)]
      exact ih fun d hd => hl d (List.mem_cons_of_mem _ hd)

theorem rdropWhile_append {p : Char → Bool} {s r : Text} (hr : ∀ c ∈ r, p c = true)
    (hs : ∀ c ∈ s.getLast?, p c = false) : (s ++ r).rdropWhile p = s := by
  unfold List.rdropWhile
  rw [List.reverse_append, dropWhile_append, List.reverse_reverse]
  · intro c hc
    exact hr c (List.mem_reverse.mp hc)
  · intro c hc
    rw [List.head?_reverse] at hc
    exact hs c hc

/-- What stands between characters that are trimmed off is left. -/
theorem trimMatches_append {p : Char → Bool} {l s r : Text} (hl : ∀ c ∈ l, p c = true)
    (hr : ∀ c ∈ r, p c = true) (hne : s ≠ []) (hfst : ∀ c ∈ s.head?, p c = false)
    (hlst : ∀ c ∈ s.getLast?, p c = false) : trimMatches p (l ++ s ++ r) = s := by
  have hfront : (l ++ (s ++ r)).dropWhile p = s ++ r := by
    apply dropWhile_append hl
    intro c hc
    rw [List.head?_append_of_ne_nil _ hne] at hc
    exact hfst c hc
  rw [trimMatches, List.append_assoc, hfront]
  exact rdropWhile_append hr hlst

/-- Text with nothing to trim off. -/
theorem trim_eq_self {s : Text} (hne : s ≠ []) (hfst : ∀ c ∈ s.head?, isWhitespace c = false)
    (hlst : ∀ c ∈ s.getLast?, isWhitespace c = false) : trim s = s := by
  have h := trimMatches_append (p := isWhitespace) (l := []) (r := []) (by simp) (by simp) hne
    hfst hlst
  rwa [List.nil_append, List.append_nil] at h

/-- What `trim` takes off is white space. -/
theorem trim_split (s : Text) : ∃ l r, s = l ++ trim s ++ r ∧
    (∀ c ∈ l, isWhitespace c = true) ∧ ∀ c ∈ r, isWhitespace c = true := by
  refine ⟨s.takeWhile isWhitespace, (s.dropWhile isWhitespace).rtakeWhile isWhitespace, ?_,
    fun c hc => List.mem_takeWhile_imp hc, fun c hc => List.mem_rtakeWhile_imp hc⟩
  unfold trim trimMatches
  rw [List.append_assoc, List.rdropWhile_append_rtakeWhile, List.takeWhile_append_dropWhile]

theorem trim_getLast {s : Text} : ∀ c ∈ (trim s).getLast?, isWhitespace c = false := by
  intro c hc
  have hne : trim s ≠ [] := by
    intro h
    rw [h] at hc
    exact absurd hc (by simp)
  rw [List.getLast?_eq_getLast_of_ne_nil hne, Option.mem_some] at hc
  rw [← hc]
  exact Bool.eq_false_iff.mpr (List.rdropWhile_last_not _ _ hne)

theorem trim_head? {s : Text} : ∀ c ∈ (trim s).head?, isWhitespace c = false := by
  intro c hc
  apply dropWhile_head? s
  obtain ⟨rest, hrest⟩ : trim s <+: s.dropWhile isWhitespace := List.rdropWhile_prefix _ _
  have hne : trim s ≠ [] := by
    intro hnil
    rw [hnil] at hc
    exact absurd hc (by simp)
  rw [← hrest, List.head?_append_of_ne_nil _ hne]
  exact hc

/-- There is nothing left to trim. -/
theorem trim_trim (s : Text) : trim (trim s) = trim s := by
  by_cases hne : trim s = []
  · rw [hne]
    rfl
  · exact trim_eq_self hne trim_head? trim_getLast

/-! ### Components -/

/-- The non-empty pieces between separators: `split(sep).filter(|s| !s.is_empty())`. -/
def components (sep : Char) (s : Text) : List Text := (s.splitOn sep).filter (· ≠ [])

/-- Joining components and taking the result apart again gives the components. -/
theorem components_join {sep : Char} {parts : List Text} (hne : parts ≠ [])
    (hparts : ∀ s ∈ parts, s ≠ [] ∧ sep ∉ s) :
    components sep (List.intercalate [sep] parts) = parts := by
  unfold components
  rw [List.splitOn_intercalate sep (fun s hs => (hparts s hs).2) hne, List.filter_eq_self]
  intro s hs
  simpa using (hparts s hs).1

/-- No piece contains the separator. -/
theorem notMem_of_mem_splitOn {sep : Char} (s : Text) : ∀ piece ∈ s.splitOn sep, sep ∉ piece := by
  induction s with
  | nil =>
      intro piece h
      rw [List.splitOn_nil, List.mem_singleton] at h
      rw [h]
      exact List.not_mem_nil
  | cons c s ih =>
      intro piece h
      unfold List.splitOn at h ih
      rw [List.splitOnP_cons_eq_if_modifyHead] at h
      split at h
      · rcases List.mem_cons.mp h with rfl | h
        · exact List.not_mem_nil
        · exact ih piece h
      · rename_i hne
        rcases hsplit : s.splitOnP (· == sep) with - | ⟨first, rest⟩
        · rw [hsplit] at h
          exact absurd h List.not_mem_nil
        · rw [hsplit] at h ih
          rcases List.mem_cons.mp h with rfl | h
          · intro hmem
            rcases List.mem_cons.mp hmem with rfl | hmem
            · exact hne (beq_self_eq_true _)
            · exact ih first List.mem_cons_self hmem
          · exact ih piece (List.mem_cons_of_mem _ h)

/-! ### UTF-8 -/

/-- The bytes of a `str`. -/
def encode (s : Text) : List UInt8 := s.flatMap String.utf8EncodeChar

/-- `str::from_utf8`. -/
def fromUtf8 (bytes : List UInt8) : Option Text :=
  bytes.toByteArray.utf8Decode?.map Array.toList

theorem fromUtf8_encode (s : Text) : fromUtf8 (encode s) = some s := by
  have h : (encode s).toByteArray.utf8Decode? = some s.toArray := List.utf8Decode?_utf8Encode
  simp [fromUtf8, h]

@[simp] theorem encode_nil : encode [] = [] := rfl

@[simp] theorem encode_append (s t : Text) : encode (s ++ t) = encode s ++ encode t :=
  List.flatMap_append

/-- A character other than the null one is encoded without a zero byte. -/
theorem zero_notMem_utf8EncodeChar {c : Char} (h : c.toNat ≠ 0) :
    0 ∉ String.utf8EncodeChar c := by
  have hmax : c.toNat < 0x110000 := by
    have := c.valid
    unfold UInt32.isValidChar Nat.isValidChar at this
    show c.val.toNat < 0x110000
    omega
  have hne : ∀ n : Nat, n % 256 ≠ 0 → (0 : UInt8) ≠ UInt8.ofNat n := by
    intro n hn heq
    apply hn
    have := congrArg UInt8.toNat heq
    simpa using this.symm
  intro hmem
  unfold String.utf8EncodeChar at hmem
  replace h : c.val.toNat ≠ 0 := h
  replace hmax : c.val.toNat < 0x110000 := hmax
  -- One case for each number of bytes the character takes.
  dsimp only at hmem
  split at hmem
  · rcases List.mem_singleton.mp hmem with hb
    exact hne _ (by omega) hb
  · split at hmem
    · simp only [List.mem_cons, List.not_mem_nil, or_false] at hmem
      rcases hmem with hb | hb
      · exact hne _ (by omega) hb
      · exact hne _ (by omega) hb
    · split at hmem
      · simp only [List.mem_cons, List.not_mem_nil, or_false] at hmem
        rcases hmem with hb | hb | hb
        · exact hne _ (by omega) hb
        · exact hne _ (by omega) hb
        · exact hne _ (by omega) hb
      · simp only [List.mem_cons, List.not_mem_nil, or_false] at hmem
        rcases hmem with hb | hb | hb | hb
        · exact hne _ (by omega) hb
        · exact hne _ (by omega) hb
        · exact hne _ (by omega) hb
        · exact hne _ (by omega) hb

theorem zero_notMem_encode {s : Text} (h : '\x00' ∉ s) : 0 ∉ encode s := by
  intro hmem
  obtain ⟨c, hc, hzero⟩ := List.mem_flatMap.mp hmem
  refine zero_notMem_utf8EncodeChar ?_ hzero
  intro h0
  apply h
  rw [← show c = '\x00' from Char.toNat_inj.mp h0]
  exact hc

/-- The length of a `str`: its bytes. -/
def byteLen (s : Text) : Nat := (s.map Char.utf8Size).sum

/-- `&s[n..]`; a cut inside a character panics. -/
def dropBytes : Nat → Text → Option Text
  | 0, s => some s
  | _ + 1, [] => none
  | n + 1, c :: s => if c.utf8Size ≤ n + 1 then dropBytes (n + 1 - c.utf8Size) s else none

/-- `&s[..n]`. -/
def takeBytes : Nat → Text → Option Text
  | 0, _ => some []
  | _ + 1, [] => none
  | n + 1, c :: s =>
      if c.utf8Size ≤ n + 1 then (takeBytes (n + 1 - c.utf8Size) s).map (c :: ·) else none

/-- `&s[i..j]`. -/
def byteSlice (s : Text) (i j : Nat) : Option Text :=
  if i ≤ j then (dropBytes i s).bind (takeBytes (j - i)) else none

/-! ### Numbers -/

/-- One more digit of a `usize`, with the checks `from_str_radix` makes. -/
def pushDigit (radix acc : Nat) (c : Char) : Option Nat :=
  if '0'.toNat ≤ c.toNat ∧ c.toNat < '0'.toNat + radix ∧
      acc * radix + (c.toNat - '0'.toNat) < 2 ^ 64 then
    some (acc * radix + (c.toNat - '0'.toNat))
  else none

/-- The sign an unsigned number may carry. -/
def stripPlus : Text → Text
  | '+' :: rest => rest
  | s => s

/-- `usize::from_str_radix`, for a radix up to ten. -/
def usizeFromRadix (radix : Nat) (s : Text) : Option Nat :=
  if stripPlus s = [] then none else (stripPlus s).foldlM (pushDigit radix) 0

/-- What a list of digits denotes. -/
def digitsValue (radix : Nat) (digits : Text) : Nat :=
  digits.foldl (fun acc c => acc * radix + (c.toNat - '0'.toNat)) 0

def IsDigit (radix : Nat) (c : Char) : Prop :=
  '0'.toNat ≤ c.toNat ∧ c.toNat < '0'.toNat + radix

theorem digitsValue_concat (radix : Nat) (ds : Text) (c : Char) :
    digitsValue radix (ds ++ [c]) = digitsValue radix ds * radix + (c.toNat - '0'.toNat) := by
  simp [digitsValue]

theorem digitsValue_lt {radix : Nat} {digits : Text}
    (h : ∀ c ∈ digits, IsDigit radix c) : digitsValue radix digits < radix ^ digits.length := by
  induction digits using List.reverseRecOn with
  | nil => simp [digitsValue]
  | append_singleton ds c ih =>
      have hlt := ih fun d hd => h d (List.mem_append_left _ hd)
      obtain ⟨hlo, hhi⟩ := h c (by simp)
      have hmul : (digitsValue radix ds + 1) * radix ≤ radix ^ ds.length * radix :=
        Nat.mul_le_mul_right _ hlt
      rw [digitsValue_concat, List.length_append, List.length_singleton, Nat.pow_succ]
      rw [Nat.succ_mul] at hmul
      omega

theorem foldlM_pushDigit {radix : Nat} (digits : Text) (h : ∀ c ∈ digits, IsDigit radix c)
    (hpos : 0 < radix) :
    digits.foldlM (pushDigit radix) 0
      = if digitsValue radix digits < 2 ^ 64 then some (digitsValue radix digits) else none := by
  induction digits using List.reverseRecOn with
  | nil => rfl
  | append_singleton ds c ih =>
      obtain ⟨hlo, hhi⟩ := h c (by simp)
      have hle : digitsValue radix ds ≤ digitsValue radix ds * radix :=
        Nat.le_mul_of_pos_right _ hpos
      rw [List.foldlM_append, ih fun d hd => h d (List.mem_append_left _ hd), digitsValue_concat]
      by_cases hfit : digitsValue radix ds < 2 ^ 64
      · rw [if_pos hfit]
        show (pushDigit radix (digitsValue radix ds) c >>= fun v => some v) = _
        unfold pushDigit
        by_cases hnext : digitsValue radix ds * radix + (c.toNat - '0'.toNat) < 2 ^ 64
        · rw [if_pos ⟨hlo, hhi, hnext⟩, if_pos hnext]
          rfl
        · rw [if_neg fun hc => hnext hc.2.2, if_neg hnext]
          rfl
      · rw [if_neg hfit, if_neg (by omega)]
        rfl

theorem stripPlus_digits {radix : Nat} {digits : Text} (h : ∀ c ∈ digits, IsDigit radix c) :
    stripPlus digits = digits := by
  unfold stripPlus
  split
  · exact absurd (h '+' List.mem_cons_self).1 (by decide)
  · rfl

/-- Reading digits gives what they denote, when that fits a `usize`. -/
theorem usizeFromRadix_digits {radix : Nat} {digits : Text} (hpos : 0 < radix)
    (hne : digits ≠ []) (h : ∀ c ∈ digits, IsDigit radix c)
    (hfit : digitsValue radix digits < 2 ^ 64) :
    usizeFromRadix radix digits = some (digitsValue radix digits) := by
  rw [usizeFromRadix, stripPlus_digits h, if_neg hne, foldlM_pushDigit digits h hpos, if_pos hfit]

/-- A number that is read is no larger than its digits allow. -/
theorem usizeFromRadix_lt {radix n : Nat} {s : Text} (hpos : 0 < radix)
    (h : usizeFromRadix radix s = some n) : n < radix ^ s.length := by
  have hfold : ∀ (digits : Text) (acc m : Nat), digits.foldlM (pushDigit radix) acc = some m →
      m < (acc + 1) * radix ^ digits.length := by
    intro digits
    induction digits with
    | nil =>
        intro acc m hm
        obtain rfl : acc = m := Option.some.inj hm
        simp
    | cons c digits ih =>
        intro acc m hm
        rw [List.foldlM_cons] at hm
        obtain ⟨acc', hacc, hm⟩ := Option.bind_eq_some_iff.mp hm
        unfold pushDigit at hacc
        split at hacc
        · rename_i hdigit
          have hle : acc' + 1 ≤ (acc + 1) * radix := by
            rw [← Option.some.inj hacc, Nat.succ_mul]
            omega
          calc m < (acc' + 1) * radix ^ digits.length := ih acc' m hm
            _ ≤ (acc + 1) * radix * radix ^ digits.length := Nat.mul_le_mul_right _ hle
            _ = (acc + 1) * radix ^ (c :: digits).length := by
                rw [List.length_cons, Nat.pow_succ, Nat.mul_assoc, Nat.mul_comm radix]
        · exact absurd hacc (by simp)
  have hstrip : (stripPlus s).length ≤ s.length := by
    unfold stripPlus
    split
    · simp
    · exact Nat.le_refl _
  unfold usizeFromRadix at h
  split at h
  · exact absurd h (by simp)
  · have hlt := hfold _ _ _ h
    rw [Nat.zero_add, Nat.one_mul] at hlt
    exact Nat.lt_of_lt_of_le hlt (Nat.pow_le_pow_right hpos hstrip)

/-- A number as `{}` prints it. -/
def decimal (n : Nat) : Text := Nat.toDigits 10 n

/-- A number as `{:width}` prints it. -/
def decimalPad (width n : Nat) : Text := (decimal n).leftpad width ' '

theorem decimal_ne_nil (n : Nat) : decimal n ≠ [] := Nat.toDigits_ne_nil

theorem decimal_isDigit {n : Nat} {c : Char} (h : c ∈ decimal n) : IsDigit 10 c := by
  have hdigit := Nat.isDigit_of_mem_toDigits (by decide) (by decide) h
  unfold Char.isDigit at hdigit
  simp only [Bool.and_eq_true, decide_eq_true_eq] at hdigit
  refine ⟨hdigit.1, ?_⟩
  have hle : c.toNat ≤ '9'.toNat := hdigit.2
  have hten : '9'.toNat + 1 = '0'.toNat + 10 := rfl
  omega

theorem digitsValue_decimal (n : Nat) : digitsValue 10 (decimal n) = n := by
  have hvalue : Nat.ofDigitChars 10 (decimal n) 0 = n :=
    Nat.ofDigitChars_toDigits (by decide) (by decide)
  rw [Nat.ofDigitChars_eq_foldl] at hvalue
  simp only [Nat.mul_comm 10] at hvalue
  exact hvalue

/-- Reading back what was printed, unless it is too large. -/
theorem usizeFromRadix_decimal (n : Nat) :
    usizeFromRadix 10 (decimal n) = if n < 2 ^ 64 then some n else none := by
  rw [usizeFromRadix, stripPlus_digits fun c => decimal_isDigit, if_neg (decimal_ne_nil n),
    foldlM_pushDigit _ (fun c => decimal_isDigit) (by decide), digitsValue_decimal]

end Text

end Amaterasu
