/-
Text by byte offsets.

A `str` is sliced at byte offsets, and an offset inside a character is a panic.  What
stands in front of a slice says whether the offset is good: `dropBytes n s` succeeds
exactly when some characters of `s` take `n` bytes together (`dropBytes_eq_some_iff`).
The encoding of one text begins another's exactly when the text does
(`encode_prefix_iff`), so bytes in common are characters in common, up to the last one.
-/
import Amaterasu.Lib.Text

namespace Amaterasu

namespace Text

/-! ### Lengths -/

@[simp] theorem byteLen_nil : byteLen [] = 0 := rfl

@[simp] theorem byteLen_cons (c : Char) (s : Text) :
    byteLen (c :: s) = c.utf8Size + byteLen s := by
  simp [byteLen]

@[simp] theorem byteLen_append (s t : Text) : byteLen (s ++ t) = byteLen s + byteLen t := by
  simp [byteLen]

theorem length_encode (s : Text) : (encode s).length = byteLen s := by
  induction s with
  | nil => rfl
  | cons c s ih =>
      rw [byteLen_cons, ← ih]
      simp [encode]

/-- Characters of one byte each. -/
theorem byteLen_eq_length {s : Text} (h : ∀ c ∈ s, c.utf8Size = 1) : byteLen s = s.length := by
  induction s with
  | nil => rfl
  | cons c s ih =>
      rw [byteLen_cons, h c List.mem_cons_self, ih fun d hd => h d (List.mem_cons_of_mem _ hd),
        List.length_cons]
      omega

/-! ### Slices -/

theorem dropBytes_cons {c : Char} {n : Nat} (s : Text) (h : 0 < n) :
    dropBytes n (c :: s) = if c.utf8Size ≤ n then dropBytes (n - c.utf8Size) s else none := by
  obtain ⟨m, rfl⟩ := Nat.exists_eq_add_one.mpr h
  rfl

theorem takeBytes_cons {c : Char} {n : Nat} (s : Text) (h : 0 < n) :
    takeBytes n (c :: s)
      = if c.utf8Size ≤ n then (takeBytes (n - c.utf8Size) s).map (c :: ·) else none := by
  obtain ⟨m, rfl⟩ := Nat.exists_eq_add_one.mpr h
  rfl

@[simp] theorem dropBytes_zero (s : Text) : dropBytes 0 s = some s := by
  cases s <;> rfl

@[simp] theorem takeBytes_zero (s : Text) : takeBytes 0 s = some [] := by
  cases s <;> rfl

theorem dropBytes_append (s t : Text) : dropBytes (byteLen s) (s ++ t) = some t := by
  induction s with
  | nil => exact dropBytes_zero t
  | cons c s ih =>
      have hc := c.utf8Size_pos
      rw [List.cons_append, byteLen_cons, dropBytes_cons _ (by omega), if_pos (by omega),
        Nat.add_sub_cancel_left, ih]

theorem takeBytes_append (s t : Text) : takeBytes (byteLen s) (s ++ t) = some s := by
  induction s with
  | nil => exact takeBytes_zero t
  | cons c s ih =>
      have hc := c.utf8Size_pos
      rw [List.cons_append, byteLen_cons, takeBytes_cons _ (by omega), if_pos (by omega),
        Nat.add_sub_cancel_left, ih]
      rfl

/-- An offset is good where some characters end. -/
theorem dropBytes_eq_some_iff {n : Nat} {s t : Text} :
    dropBytes n s = some t ↔ ∃ a, s = a ++ t ∧ byteLen a = n := by
  constructor
  · intro h
    induction s generalizing n with
    | nil =>
        rcases Nat.eq_zero_or_pos n with rfl | hn
        · exact ⟨[], by simpa using h, rfl⟩
        · obtain ⟨m, rfl⟩ := Nat.exists_eq_add_one.mpr hn
          exact absurd h (by simp [dropBytes])
    | cons c s ih =>
        rcases Nat.eq_zero_or_pos n with rfl | hn
        · rw [dropBytes_zero] at h
          exact ⟨[], Option.some.inj h, rfl⟩
        · rw [dropBytes_cons _ hn] at h
          split at h
          · obtain ⟨a, rfl, ha⟩ := ih h
            refine ⟨c :: a, rfl, ?_⟩
            rw [byteLen_cons, ha]
            omega
          · exact absurd h (by simp)
  · rintro ⟨a, rfl, rfl⟩
    exact dropBytes_append a t

theorem takeBytes_eq_some_iff {n : Nat} {s a : Text} :
    takeBytes n s = some a ↔ ∃ t, s = a ++ t ∧ byteLen a = n := by
  constructor
  · intro h
    induction s generalizing n a with
    | nil =>
        rcases Nat.eq_zero_or_pos n with rfl | hn
        · obtain rfl : [] = a := by simpa using h
          exact ⟨[], rfl, rfl⟩
        · obtain ⟨m, rfl⟩ := Nat.exists_eq_add_one.mpr hn
          exact absurd h (by simp [takeBytes])
    | cons c s ih =>
        rcases Nat.eq_zero_or_pos n with rfl | hn
        · obtain rfl : [] = a := by simpa using h
          exact ⟨c :: s, rfl, rfl⟩
        · rw [takeBytes_cons _ hn] at h
          split at h
          · obtain ⟨b, hb, rfl⟩ := Option.map_eq_some_iff.mp h
            obtain ⟨t, rfl, hlen⟩ := ih hb
            refine ⟨t, rfl, ?_⟩
            rw [byteLen_cons, hlen]
            omega
          · exact absurd h (by simp)
  · rintro ⟨t, rfl, rfl⟩
    exact takeBytes_append a t

/-- The slice between two texts. -/
theorem byteSlice_append (a b c : Text) :
    byteSlice (a ++ (b ++ c)) (byteLen a) (byteLen (a ++ b)) = some b := by
  rw [byteSlice, byteLen_append, if_pos (Nat.le_add_right _ _), dropBytes_append,
    Option.bind_some, Nat.add_sub_cancel_left, takeBytes_append]

/-! ### Common beginnings -/

/-- What decodes is an encoding. -/
theorem encode_of_fromUtf8 {bytes : List UInt8} {s : Text} (h : fromUtf8 bytes = some s) :
    encode s = bytes := by
  obtain ⟨chars, hchars, hs⟩ := Option.map_eq_some_iff.mp h
  have hsome : bytes.toByteArray.utf8Decode?.isSome := by
    rw [hchars]
    rfl
  obtain ⟨l, hl⟩ := ByteArray.isSome_utf8Decode?_iff.mp hsome
  have hbytes : bytes = encode l := List.toByteArray_inj.mp hl
  have hdecode := fromUtf8_encode l
  rw [← hbytes, h] at hdecode
  rw [hbytes, Option.some.inj hdecode]

theorem length_le_byteLen (s : Text) : s.length ≤ byteLen s := by
  induction s with
  | nil => exact Nat.le_refl 0
  | cons c s ih =>
      have hc := c.utf8Size_pos
      rw [byteLen_cons, List.length_cons]
      omega

/-- A text begins another when its bytes begin the other's. -/
theorem encode_prefix_iff {s t : Text} : encode s <+: encode t ↔ s <+: t := by
  constructor
  · rintro ⟨rest, hrest⟩
    refine List.isPrefix_of_utf8Encode_append_eq_utf8Encode rest.toByteArray ?_
    show (encode s).toByteArray ++ rest.toByteArray = (encode t).toByteArray
    rw [← List.toByteArray_append, hrest]
  · rintro ⟨rest, rfl⟩
    rw [encode_append]
    exact List.prefix_append _ _

/-- Of two good offsets, the smaller one takes a beginning of what the larger one takes. -/
theorem prefix_of_byteLen_le {a b s : Text} (ha : a <+: s) (hb : b <+: s)
    (h : byteLen a ≤ byteLen b) : a <+: b := by
  rw [← encode_prefix_iff] at ha hb ⊢
  rw [← length_encode, ← length_encode] at h
  exact List.prefix_of_prefix_length_le ha hb h

/-- A slice is good when both its offsets are. -/
theorem byteSlice_isSome {i j : Nat} {s : Text} (hle : i ≤ j) (hi : (dropBytes i s).isSome = true) :
    (byteSlice s i j).isSome = true ↔ (dropBytes j s).isSome = true := by
  obtain ⟨t, ht⟩ := Option.isSome_iff_exists.mp hi
  obtain ⟨a, rfl, rfl⟩ := dropBytes_eq_some_iff.mp ht
  constructor
  · intro h
    rw [byteSlice, if_pos hle, dropBytes_append, Option.bind_some] at h
    obtain ⟨b, hb⟩ := Option.isSome_iff_exists.mp h
    obtain ⟨r, rfl, hlen⟩ := takeBytes_eq_some_iff.mp hb
    have hsum : j = byteLen (a ++ b) := by
      rw [byteLen_append]
      omega
    rw [hsum, ← List.append_assoc, dropBytes_append]
    rfl
  · intro h
    obtain ⟨r, hr⟩ := Option.isSome_iff_exists.mp h
    obtain ⟨b, heq, rfl⟩ := dropBytes_eq_some_iff.mp hr
    obtain ⟨c, rfl⟩ := prefix_of_byteLen_le (List.prefix_append a t) ⟨r, heq.symm⟩ hle
    rw [heq, List.append_assoc, byteSlice_append]
    rfl

/-- The first byte of a character. -/
def firstByte (c : Char) : UInt8 := (String.utf8EncodeChar c).headD 0

theorem encode_cons (c : Char) (s : Text) :
    ∃ bytes, encode (c :: s) = firstByte c :: bytes := by
  have hne : String.utf8EncodeChar c ≠ [] := by
    intro h
    have hlen := String.length_utf8EncodeChar c
    have hpos := c.utf8Size_pos
    rw [h, List.length_nil] at hlen
    omega
  obtain ⟨b, bytes, hbytes⟩ := List.exists_cons_of_ne_nil hne
  refine ⟨bytes ++ encode s, ?_⟩
  unfold encode firstByte
  rw [List.flatMap_cons, hbytes]
  rfl

/-- A character of one byte is known by it. -/
theorem eq_of_firstByte {c d : Char} (hd : d.utf8Size = 1) (h : firstByte c = firstByte d) :
    c = d := by
  obtain ⟨bytes, hc⟩ := encode_cons c []
  obtain ⟨none, hdbytes⟩ := encode_cons d []
  have hlen : (encode [d]).length = 1 := by
    rw [length_encode, byteLen_cons, hd, byteLen_nil]
  have hnone : none = [] := by
    rw [hdbytes, List.length_cons] at hlen
    exact List.length_eq_zero_iff.mp (by omega)
  have hpre : encode [d] <+: encode [c] := by
    rw [hdbytes, hc, hnone, h]
    exact ⟨bytes, rfl⟩
  obtain ⟨rest, hrest⟩ := encode_prefix_iff.mp hpre
  exact (List.cons.inj hrest).1.symm

/-- Texts that part inside a character: they agree up to some point, and what follows are
characters that begin with the same byte and are not all the same. -/
def Cut (names : List Text) : Prop :=
  ∃ p b, (∀ n ∈ names, ∃ c r, n = p ++ c :: r ∧ firstByte c = b) ∧
    ¬ ∃ c, ∀ n ∈ names, p ++ [c] <+: n

/-- The most characters of a text that begin the bytes that its encoding begins with. -/
theorem exists_longest_prefix (bytes : List UInt8) (first : Text) :
    ∃ a, a <+: first ∧ encode a <+: bytes ∧
      ∀ a', a' <+: first → encode a' <+: bytes → a'.length ≤ a.length := by
  classical
  have h0 : encode (first.take 0) <+: bytes := by
    rw [List.take_zero, encode_nil]
    exact List.nil_prefix
  refine ⟨first.take (Nat.findGreatest (fun k => encode (first.take k) <+: bytes) first.length),
    List.take_prefix _ _, ?_, ?_⟩
  · exact Nat.findGreatest_spec (P := fun k => encode (first.take k) <+: bytes) (Nat.zero_le _) h0
  · intro a' hpre hbytes
    have hlen : (first.take (Nat.findGreatest (fun k => encode (first.take k) <+: bytes)
        first.length)).length
        = Nat.findGreatest (fun k => encode (first.take k) <+: bytes) first.length :=
      List.length_take_of_le (Nat.findGreatest_le _)
    rw [hlen]
    apply Nat.le_findGreatest hpre.length_le
    rw [← List.prefix_iff_eq_take.mp hpre]
    exact hbytes

/-- The bytes that texts have in common end at the end of a character, unless the texts part
inside one. -/
theorem dropBytes_common {names : List Text} {bytes : List UInt8} {first : Text}
    (hbytes : ∀ x, x <+: bytes ↔ ∀ n ∈ names, x <+: encode n) (hfirst : first ∈ names) :
    (dropBytes bytes.length first).isSome = true ↔ ¬ Cut names := by
  have hall : ∀ n ∈ names, bytes <+: encode n := (hbytes bytes).mp List.prefix_rfl
  constructor
  · rintro hsome ⟨p, b, hpart, hdiff⟩
    obtain ⟨t, ht⟩ := Option.isSome_iff_exists.mp hsome
    obtain ⟨a, rfl, hlen⟩ := dropBytes_eq_some_iff.mp ht
    -- The bytes in common are those of `a`, so `a` begins every text.
    have hencode : encode a = bytes := by
      have hle : encode a <+: encode (a ++ t) := by
        rw [encode_append]
        exact List.prefix_append _ _
      have hpre := List.prefix_of_prefix_length_le hle (hall _ hfirst)
        (Nat.le_of_eq (by rw [length_encode, hlen]))
      exact hpre.eq_of_length (by rw [length_encode, hlen])
    have hmore : encode p ++ [b] <+: encode a := by
      rw [hencode, hbytes]
      intro n hn
      obtain ⟨c, r, rfl, rfl⟩ := hpart n hn
      obtain ⟨rest, hrest⟩ := encode_cons c r
      rw [encode_append, hrest]
      exact ⟨rest, by simp⟩
    obtain ⟨a', rfl⟩ := encode_prefix_iff.mp ((List.prefix_append _ _).trans hmore)
    rcases a' with - | ⟨c, a'⟩
    · have hlt := hmore.length_le
      simp at hlt
    · refine hdiff ⟨c, ?_⟩
      intro n hn
      have hpre : p ++ c :: a' <+: n := encode_prefix_iff.mp (hencode ▸ hall n hn)
      exact List.IsPrefix.trans ⟨a', by simp⟩ hpre
  · intro hcut
    obtain ⟨a, hpre, hencode, hmost⟩ := exists_longest_prefix bytes first
    obtain ⟨more, hmore⟩ := hencode
    rcases more with - | ⟨b, more⟩
    · rw [List.append_nil] at hmore
      obtain ⟨t, rfl⟩ := hpre
      rw [← hmore, length_encode, dropBytes_append]
      rfl
    · -- All texts go on behind `a`, with the byte `b`.
      have hnext : ∀ n ∈ names, ∃ c r, n = a ++ c :: r ∧ firstByte c = b := by
        intro n hn
        have hn' := hall n hn
        rw [← hmore] at hn'
        obtain ⟨r, rfl⟩ := encode_prefix_iff.mp ((List.prefix_append _ _).trans hn')
        rw [encode_append, List.prefix_append_right_inj] at hn'
        rcases r with - | ⟨c, r⟩
        · exact absurd (List.prefix_nil.mp hn') (by simp)
        · obtain ⟨rest, hrest⟩ := encode_cons c r
          rw [hrest] at hn'
          exact ⟨c, r, rfl, (List.cons_prefix_cons.mp hn').1.symm⟩
      refine absurd ⟨a, b, hnext, ?_⟩ hcut
      rintro ⟨c, hc⟩
      have hlong := hmost (a ++ [c]) (hc first hfirst)
        ((hbytes _).mpr fun n hn => encode_prefix_iff.mpr (hc n hn))
      simp at hlong

/-- Texts that are all the same do not part at all. -/
theorem not_cut_of_same {names : List Text} (h : ∀ m ∈ names, ∀ n ∈ names, m = n) :
    ¬ Cut names := by
  rintro ⟨p, b, hpart, hdiff⟩
  rcases names with - | ⟨first, names⟩
  · exact hdiff ⟨'a', by simp⟩
  · obtain ⟨c, r, hfirst, -⟩ := hpart first List.mem_cons_self
    refine hdiff ⟨c, ?_⟩
    intro n hn
    rw [h n hn first List.mem_cons_self, hfirst]
    exact ⟨r, by simp⟩

theorem not_cut_nil : ¬ Cut [] := not_cut_of_same (by simp)

/-- Two texts do not part inside a character if the characters they part at begin with
different bytes. -/
theorem not_cut_pair (q : Text) {c d : Char} (r r' : Text) (h : firstByte c ≠ firstByte d) :
    ¬ Cut [q ++ c :: r, q ++ d :: r'] := by
  rintro ⟨p, b, hpart, hdiff⟩
  obtain ⟨c', s, hc, hcb⟩ := hpart (q ++ c :: r) (by simp)
  obtain ⟨d', s', hd, hdb⟩ := hpart (q ++ d :: r') (by simp)
  rcases List.append_eq_append_iff.mp hc with ⟨a, rfl, hcs⟩ | ⟨a, rfl, hcs⟩
  · rw [List.append_assoc, List.append_cancel_left_eq] at hd
    rcases a with - | ⟨e, a⟩
    · rw [(List.cons.inj hcs).1, (List.cons.inj hd).1, hcb, hdb] at h
      exact h rfl
    · rw [(List.cons.inj hcs).1, (List.cons.inj hd).1] at h
      exact h rfl
  · rcases a with - | ⟨e, a⟩
    · rw [List.append_nil, List.append_cancel_left_eq] at hd
      rw [← (List.cons.inj hcs).1, (List.cons.inj hd).1, hcb, hdb] at h
      exact h rfl
    · exact hdiff ⟨e, by simp⟩

/-- Texts of characters of one byte do not part inside one. -/
theorem not_cut_of_ascii {names : List Text} (h : ∀ n ∈ names, ∀ c ∈ n, c.utf8Size = 1) :
    ¬ Cut names := by
  rintro ⟨p, b, hpart, hdiff⟩
  rcases names with - | ⟨first, names⟩
  · exact not_cut_nil ⟨p, b, hpart, hdiff⟩
  · obtain ⟨c, r, hfirst, hc⟩ := hpart first List.mem_cons_self
    refine hdiff ⟨c, ?_⟩
    intro n hn
    obtain ⟨d, r', rfl, hd⟩ := hpart n hn
    have hsize : c.utf8Size = 1 := h first List.mem_cons_self c (by simp [hfirst])
    obtain rfl := eq_of_firstByte hsize (hd.trans hc.symm)
    exact ⟨r', by simp⟩

/-- A character of one byte behind some of the texts makes no difference. -/
theorem cut_map_iff {names : List Text} {f : Text → Text} {d : Char} (hd : d.utf8Size = 1)
    (hf : ∀ n ∈ names, f n = n ∨ f n = n ++ [d]) : Cut (names.map f) ↔ Cut names := by
  have hpre : ∀ n ∈ names, n <+: f n := by
    intro n hn
    rcases hf n hn with heq | heq
    · rw [heq]
    · rw [heq]
      exact List.prefix_append _ _
  constructor
  · rintro ⟨p, b, hpart, hdiff⟩
    have hpart : ∀ n ∈ names, ∃ c r, f n = p ++ c :: r ∧ firstByte c = b :=
      fun n hn => hpart (f n) (List.mem_map_of_mem hn)
    refine ⟨p, b, ?_, ?_⟩
    · intro n hn
      obtain ⟨c, r, heq, hc⟩ := hpart n hn
      rcases hf n hn with hn' | hn'
      · exact ⟨c, r, hn' ▸ heq, hc⟩
      · rw [hn'] at heq
        rcases List.eq_nil_or_concat r with rfl | ⟨r, e, rfl⟩
        · -- The character itself is what they begin with, so they do not part here.
          obtain ⟨-, hcd⟩ := List.append_inj' heq rfl
          obtain rfl : d = c := (List.cons.inj hcd).1
          refine absurd ⟨d, ?_⟩ hdiff
          intro m hm
          obtain ⟨m, hmem, rfl⟩ := List.mem_map.mp hm
          obtain ⟨c', r', heq', hc'⟩ := hpart m hmem
          obtain rfl := eq_of_firstByte hd (hc'.trans hc.symm)
          exact ⟨r', by rw [heq', List.append_assoc]; rfl⟩
        · have heq' : n ++ [d] = (p ++ c :: r) ++ [e] := by simpa using heq
          exact ⟨c, r, (List.append_inj' heq' rfl).1, hc⟩
    · rintro ⟨c, hc⟩
      refine hdiff ⟨c, ?_⟩
      intro m hm
      obtain ⟨n, hn, rfl⟩ := List.mem_map.mp hm
      exact (hc n hn).trans (hpre n hn)
  · rintro ⟨p, b, hpart, hdiff⟩
    refine ⟨p, b, ?_, ?_⟩
    · intro m hm
      obtain ⟨n, hn, rfl⟩ := List.mem_map.mp hm
      obtain ⟨c, r, rfl, hc⟩ := hpart n hn
      obtain ⟨t, ht⟩ := hpre _ hn
      exact ⟨c, r ++ t, by rw [← ht]; simp, hc⟩
    · rintro ⟨c, hc⟩
      refine hdiff ⟨c, ?_⟩
      intro n hn
      obtain ⟨d', r, rfl, -⟩ := hpart n hn
      have hn' := hc _ (List.mem_map_of_mem hn)
      obtain ⟨t, ht⟩ := hpre _ hn
      rw [← ht, List.append_assoc, List.prefix_append_right_inj, List.cons_append,
        List.cons_prefix_cons] at hn'
      rw [hn'.1]
      exact ⟨r, by simp⟩

end Text

end Amaterasu
