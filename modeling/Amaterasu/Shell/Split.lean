/-
Where a line is cut into commands.

`split_commands` works on byte offsets and keeps its own open quote; `tokenize_quoted`
reads the quotes again, on each segment by itself.  They agree: the line is cut at every
separator that `tokenize_quoted` would read outside quotes and at no other, so that no
segment but the last ends inside a quote, and cutting loses no token.
-/
import Amaterasu.Lib.Utf8
import Amaterasu.Shell.Args

namespace Amaterasu

namespace Words

/-! ### The loop on byte offsets -/

/-- `char_indices`, from an offset on. -/
def charIndices : Nat → Text → List (Nat × Char)
  | _, [] => []
  | pos, ch :: rest => (pos, ch) :: charIndices (pos + ch.utf8Size) rest

/-- The loop of `split_commands`: the open quote, the offset a segment starts at, and the
characters to come.  `none` is a slice that is cut inside a character. -/
def splitSlices (input : Text) : Option Char → Nat → List (Nat × Char) → Option (List Text)
  | _, start, [] => (Text.dropBytes start input).map ([·])
  | some q, start, (_, ch) :: rest =>
      splitSlices input (if ch = q then none else some q) start rest
  | none, start, (pos, '&') :: (pos', '&') :: rest => do
      let seg ← Text.byteSlice input start pos
      let segs ← splitSlices input none (pos' + 1) rest
      some (seg :: segs)
  | none, start, (pos, ch) :: rest =>
      if ch = '"' ∨ ch = '\'' then splitSlices input (some ch) start rest
      else if ch = ';' then do
        let seg ← Text.byteSlice input start pos
        let segs ← splitSlices input none (pos + 1) rest
        some (seg :: segs)
      else splitSlices input none start rest

/-- Characters keep their order among the offsets. -/
theorem charIndices_cons {pos pos' : Nat} {ch : Char} {rest : Text} {more : List (Nat × Char)}
    (h : charIndices pos rest = (pos', ch) :: more) : ∃ rest', rest = ch :: rest' := by
  rcases rest with - | ⟨c, rest⟩
  · exact absurd h (by simp [charIndices])
  · rw [charIndices] at h
    obtain ⟨rfl, rfl⟩ := Prod.mk.inj (List.cons.inj h).1
    exact ⟨rest, rfl⟩

theorem byteLen_snoc (done seg : Text) (ch : Char) :
    Text.byteLen (done ++ (seg ++ [ch])) = Text.byteLen (done ++ seg) + ch.utf8Size := by
  simp only [Text.byteLen_append, Text.byteLen_cons, Text.byteLen_nil]
  omega

/-- Every slice is cut between characters, and the segments are those of the list. -/
theorem splitSlices_eq (quote : Option Char) (seg rest done : Text) :
    splitSlices (done ++ (seg ++ rest)) quote (Text.byteLen done)
      (charIndices (Text.byteLen (done ++ seg)) rest) = some (splitFrom quote seg rest) := by
  induction quote, seg, rest using splitFrom.induct generalizing done with
  | case1 quote seg =>
      rw [charIndices, splitSlices, splitFrom, List.append_nil, Text.dropBytes_append]
      rfl
  | case2 q seg ch rest ih =>
      have h := ih done
      rw [byteLen_snoc, ← List.append_cons] at h
      rw [charIndices, splitSlices, splitFrom, h]
  | case3 seg rest ih =>
      have h := ih (done ++ (seg ++ ['&', '&']))
      have hlen : Text.byteLen (done ++ (seg ++ ['&', '&']))
          = Text.byteLen (done ++ seg) + '&'.utf8Size + 1 := by
        simp only [Text.byteLen_append, Text.byteLen_cons, Text.byteLen_nil]
        rfl
      rw [List.append_nil, hlen, List.nil_append, List.append_assoc, List.append_assoc] at h
      rw [charIndices, charIndices, splitSlices, splitFrom, Text.byteSlice_append]
      show (splitSlices _ none _ _ >>= fun segs => some (seg :: segs)) = _
      rw [show '&' :: '&' :: rest = ['&', '&'] ++ rest from rfl]
      rw [show (1 : Nat) = '&'.utf8Size from rfl] at h ⊢
      rw [h]
      rfl
  | case4 seg ch rest hpair hquote ih =>
      have h := ih done
      rw [byteLen_snoc, ← List.append_cons] at h
      rw [charIndices, splitSlices, splitFrom, if_pos hquote, if_pos hquote, h]
      · exact hpair
      · intro _ more hrest hch
        obtain ⟨rest', hrest'⟩ := charIndices_cons hrest
        exact hpair rest' hch hrest'
  | case5 seg rest hpair hquote ih =>
      have h := ih (done ++ (seg ++ [';']))
      rw [List.append_nil, byteLen_snoc, List.nil_append, List.append_assoc, List.append_assoc] at h
      rw [charIndices, splitSlices, splitFrom, if_neg hquote, if_neg hquote, if_pos rfl, if_pos rfl,
        Text.byteSlice_append]
      · show (splitSlices _ none _ _ >>= fun segs => some (seg :: segs)) = _
        rw [show ';' :: rest = [';'] ++ rest from rfl, show (1 : Nat) = ';'.utf8Size from rfl, h]
        rfl
      · exact hpair
      · intro _ more _ hch
        exact absurd hch (by decide)
  | case6 seg ch rest hpair hquote hsemi ih =>
      have h := ih done
      rw [byteLen_snoc, ← List.append_cons] at h
      rw [charIndices, splitSlices, splitFrom, if_neg hquote, if_neg hquote, if_neg hsemi,
        if_neg hsemi, h]
      · exact hpair
      · intro _ more hrest hch
        obtain ⟨rest', hrest'⟩ := charIndices_cons hrest
        exact hpair rest' hch hrest'

/-! ### Cutting at the first separator outside quotes -/

def separators : List Text := [[';'], ['&', '&']]

/-- No separator begins in a text outside quotes, with what comes behind the text. -/
def Unseparated (seg behind : Text) : Prop :=
  ∀ pre post, seg = pre ++ post → post ≠ [] → openQuote none pre = none →
    ∀ sep ∈ separators, ¬ sep <+: post ++ behind

/-- A text cut at the first separator outside quotes, and again behind it. -/
inductive Cut : Text → List Text → Prop
  | last {seg : Text} (h : Unseparated seg []) : Cut seg [seg]
  | first {seg sep rest : Text} {segs : List Text} (h : Unseparated seg (sep ++ rest))
      (hopen : openQuote none seg = none) (hsep : sep ∈ separators) (hrest : Cut rest segs) :
      Cut (seg ++ (sep ++ rest)) (seg :: segs)

theorem unseparated_nil (behind : Text) : Unseparated [] behind := by
  intro pre post h hne
  exact absurd (List.append_eq_nil_iff.mp h.symm).2 hne

/-- One more character, where no separator begins with it outside quotes. -/
theorem unseparated_snoc {seg rest : Text} {ch : Char} (h : Unseparated seg (ch :: rest))
    (hch : openQuote none seg = none → ∀ sep ∈ separators, ¬ sep <+: ch :: rest) :
    Unseparated (seg ++ [ch]) rest := by
  intro pre post hsplit hne hopen sep hsep hpre
  rcases List.eq_nil_or_concat post with rfl | ⟨post', d, rfl⟩
  · exact hne rfl
  rw [List.concat_eq_append, ← List.append_assoc] at hsplit
  obtain ⟨rfl, hd⟩ := List.append_inj' hsplit rfl
  obtain rfl : ch = d := List.singleton_inj.mp hd
  rw [List.concat_eq_append, List.append_assoc, List.singleton_append] at hpre
  rcases eq_or_ne post' [] with rfl | hne'
  · rw [List.append_nil] at hch
    exact hch hopen sep hsep hpre
  · exact h pre post' rfl hne' hopen sep hsep hpre

theorem openQuote_snoc (seg : Text) (ch : Char) :
    openQuote none (seg ++ [ch]) = openQuote (openQuote none seg) [ch] :=
  openQuote_append seg [ch] none

theorem separator_begins {sep rest : Text} {ch : Char} (hsep : sep ∈ separators)
    (hpre : sep <+: ch :: rest) : ch = ';' ∨ (ch = '&' ∧ ∃ rest', rest = '&' :: rest') := by
  unfold separators at hsep
  rcases List.mem_cons.mp hsep with rfl | hsep
  · exact Or.inl (List.cons_prefix_cons.mp hpre).1.symm
  · rw [List.mem_singleton.mp hsep] at hpre
    obtain ⟨hch, more, hmore⟩ := List.cons_prefix_cons.mp hpre
    exact Or.inr ⟨hch.symm, more, hmore.symm⟩

/-- The scanner cuts the way it should. -/
theorem splitFrom_cut (quote : Option Char) (seg rest : Text) (hquote : openQuote none seg = quote)
    (hseg : Unseparated seg rest) : Cut (seg ++ rest) (splitFrom quote seg rest) := by
  induction quote, seg, rest using splitFrom.induct with
  | case1 quote seg =>
      rw [splitFrom, List.append_nil]
      exact .last hseg
  | case2 q seg ch rest ih =>
      rw [splitFrom, List.append_cons]
      apply ih
      · rw [openQuote_snoc, hquote]
        rfl
      · apply unseparated_snoc hseg
        intro hopen
        rw [hopen] at hquote
        exact absurd hquote (by simp)
  | case3 seg rest ih =>
      rw [splitFrom]
      have hsep : ['&', '&'] ∈ separators := by simp [separators]
      exact .first hseg hquote hsep (ih rfl (unseparated_nil rest))
  | case4 seg ch rest hpair hch ih =>
      rw [splitFrom, if_pos hch, List.append_cons]
      · apply ih
        · rw [openQuote_snoc, hquote, openQuote, if_pos hch]
          rfl
        · apply unseparated_snoc hseg
          intro _ sep hsep hpre
          rcases separator_begins hsep hpre with rfl | ⟨hamp, rest', hrest⟩
          · exact absurd hch (by decide)
          · exact hpair rest' hamp hrest
      · exact hpair
  | case5 seg rest hpair hch ih =>
      rw [splitFrom, if_neg hch, if_pos rfl]
      · have hsep : [';'] ∈ separators := by simp [separators]
        exact .first hseg hquote hsep (ih rfl (unseparated_nil rest))
      · exact hpair
  | case6 seg ch rest hpair hch hsemi ih =>
      rw [splitFrom, if_neg hch, if_neg hsemi, List.append_cons]
      · apply ih
        · rw [openQuote_snoc, hquote, openQuote, if_neg hch]
          rfl
        · apply unseparated_snoc hseg
          intro _ sep hsep hpre
          rcases separator_begins hsep hpre with hsemi' | ⟨hamp, rest', hrest⟩
          · exact hsemi hsemi'
          · exact hpair rest' hamp hrest
      · exact hpair

/-! ### What a cut line consists of -/

/-- Segments with separators put between them. -/
def rejoin : List Text → List Text → Text
  | seg :: segs, sep :: seps => seg ++ (sep ++ rejoin segs seps)
  | seg :: _, [] => seg
  | [], _ => []

/-- The separators that stand between segments, each with all that stands before it. -/
def removed : List Text → List Text → List (Text × Text)
  | seg :: segs, sep :: seps =>
      (seg, sep) :: (removed segs seps).map fun r => (seg ++ (sep ++ r.1), r.2)
  | _, _ => []

/-- The separators of a line that count: those outside quotes, where the second character
of a `&&` that was removed does not begin another. -/
def Counts (segs seps : List Text) (before : Text) : Prop :=
  openQuote none before = none ∧
    ∀ b, (b, ['&', '&']) ∈ removed segs seps → before ≠ b ++ ['&']

theorem Cut.ne_nil {s : Text} {segs : List Text} (h : Cut s segs) : segs ≠ [] := by
  cases h with
  | last h => simp
  | first h hopen hsep hrest => simp

/-- A space does what the separator did. -/
theorem Cut.tokens {s : Text} {segs : List Text} (h : Cut s segs) :
    segs.flatMap tokenizeQuoted = tokenizeQuoted (List.intercalate [' '] segs) := by
  induction h with
  | last h => simp
  | @first seg sep rest segs h hopen hsep hrest ih =>
      obtain ⟨seg', segs', rfl⟩ := List.exists_cons_of_ne_nil hrest.ne_nil
      have hjoin : List.intercalate [' '] (seg :: seg' :: segs')
          = seg ++ ' ' :: List.intercalate [' '] (seg' :: segs') := by
        simp [List.intercalate]
      rw [List.flatMap_cons, ih, hjoin]
      exact (tokenizeFrom_space (by decide) seg _ none [] hopen).symm

theorem openQuote_separator {sep : Text} (hsep : sep ∈ separators) : openQuote none sep = none := by
  unfold separators at hsep
  rcases List.mem_cons.mp hsep with rfl | hsep
  · rfl
  · rw [List.mem_singleton.mp hsep]
    rfl

/-- Two separators that begin one text are the same. -/
theorem separator_unique {sep sep' after after' : Text} (hsep : sep ∈ separators)
    (hsep' : sep' ∈ separators) (h : sep ++ after = sep' ++ after') : sep = sep' := by
  unfold separators at hsep hsep'
  simp only [List.mem_cons, List.not_mem_nil, or_false] at hsep hsep'
  rcases hsep with rfl | rfl
  · rcases hsep' with rfl | rfl
    · rfl
    · exact absurd (List.cons.inj h).1 (by decide)
  · rcases hsep' with rfl | rfl
    · exact absurd (List.cons.inj h).1 (by decide)
    · rfl

/-- What stands before a separator behind the first one. -/
theorem mem_removed_cons {seg sep before sep' : Text} {segs seps : List Text} :
    (before, sep') ∈ removed (seg :: segs) (sep :: seps) ↔
      (before = seg ∧ sep' = sep) ∨
        ∃ b, (b, sep') ∈ removed segs seps ∧ before = seg ++ (sep ++ b) := by
  rw [removed, List.mem_cons, Prod.mk.injEq, List.mem_map]
  constructor
  · rintro (h | ⟨⟨b, t⟩, hb, heq⟩)
    · exact Or.inl h
    · obtain ⟨rfl, rfl⟩ := Prod.mk.inj heq
      exact Or.inr ⟨b, hb, rfl⟩
  · rintro (h | ⟨b, hb, rfl⟩)
    · exact Or.inl h
    · exact Or.inr ⟨(b, sep'), hb, rfl⟩

theorem separator_ne_nil {sep : Text} (hsep : sep ∈ separators) : sep ≠ [] := by
  rintro rfl
  exact absurd hsep (by decide)

/-- The first part of a separator is all of it, or one of two ampersands. -/
theorem separator_split {a c : Text} (hsep : a ++ c ∈ separators) (ha : a ≠ []) (hc : c ≠ []) :
    a = ['&'] ∧ a ++ c = ['&', '&'] := by
  obtain ⟨x, a, rfl⟩ := List.exists_cons_of_ne_nil ha
  obtain ⟨y, c, rfl⟩ := List.exists_cons_of_ne_nil hc
  unfold separators at hsep
  rcases List.mem_cons.mp hsep with h | h
  · have hlen := congrArg List.length h
    simp only [List.length_cons, List.length_append, List.length_nil] at hlen
    omega
  · have heq := List.mem_singleton.mp h
    have hlen := congrArg List.length heq
    simp only [List.length_cons, List.length_append, List.length_nil] at hlen
    obtain rfl : a = [] := List.length_eq_zero_iff.mp (by omega)
    refine ⟨?_, heq⟩
    rw [(List.cons.inj heq).1]

section First

variable {seg sep before sep' after rest : Text} {segs seps : List Text}

/-- Behind the first separator, the separators that count are those that count in the
rest. -/
theorem counts_behind (hopen : openQuote none seg = none) (hsep : sep ∈ separators) :
    Counts (seg :: segs) (sep :: seps) (seg ++ (sep ++ before)) ↔ Counts segs seps before := by
  have hquote : openQuote none (seg ++ (sep ++ before)) = openQuote none before := by
    rw [openQuote_append, hopen, openQuote_append, openQuote_separator hsep]
  unfold Counts
  rw [hquote]
  refine and_congr_right fun _ => ⟨?_, ?_⟩
  · rintro h b hb rfl
    refine h (seg ++ (sep ++ b)) (mem_removed_cons.mpr (Or.inr ⟨b, hb, rfl⟩)) ?_
    rw [List.append_assoc, List.append_assoc]
  · intro h b hb heq
    rcases mem_removed_cons.mp hb with ⟨rfl, rfl⟩ | ⟨b', hb', rfl⟩
    · have hlen := congrArg List.length (List.append_cancel_left heq)
      simp only [List.length_cons, List.length_append, List.length_nil] at hlen
      omega
    · rw [List.append_assoc, List.append_assoc] at heq
      exact h b' hb' (List.append_cancel_left (List.append_cancel_left heq))

/-- No separator before the first. -/
theorem not_counts_inside (h : Unseparated (before ++ rest) after) (hrest : rest ≠ [])
    (hsep : sep ∈ separators) (hpre : sep <+: rest ++ after) :
    ¬ Counts segs seps before :=
  fun hcounts => h before rest rfl hrest hcounts.1 sep hsep hpre

/-- Nothing is removed before the end of the first segment. -/
theorem length_le_of_removed (h : (before, sep') ∈ removed (seg :: segs) (sep :: seps)) :
    seg.length ≤ before.length := by
  rcases mem_removed_cons.mp h with ⟨rfl, -⟩ | ⟨b, -, rfl⟩
  · exact Nat.le_refl _
  · rw [List.length_append]
    exact Nat.le_add_right _ _

/-- The first separator counts. -/
theorem counts_first (hopen : openQuote none seg = none) :
    Counts (seg :: segs) (sep :: seps) seg := by
  refine ⟨hopen, ?_⟩
  intro b hb heq
  have hle := length_le_of_removed hb
  have hlen := congrArg List.length heq
  simp only [List.length_append, List.length_cons, List.length_nil] at hlen
  omega

theorem removed_iff_end (hopen : openQuote none seg = none) :
    (seg, sep) ∈ removed (seg :: segs) (sep :: seps) ↔ Counts (seg :: segs) (sep :: seps) seg :=
  iff_of_true (mem_removed_cons.mpr (Or.inl ⟨rfl, rfl⟩)) (counts_first hopen)

theorem removed_iff_behind (hopen : openQuote none seg = none) (hsep : sep ∈ separators)
    (hiff : (before, sep') ∈ removed segs seps ↔ Counts segs seps before) :
    (seg ++ (sep ++ before), sep') ∈ removed (seg :: segs) (sep :: seps) ↔
      Counts (seg :: segs) (sep :: seps) (seg ++ (sep ++ before)) := by
  rw [counts_behind hopen hsep, ← hiff, mem_removed_cons]
  constructor
  · rintro (⟨hb, -⟩ | ⟨b, hb, heq⟩)
    · have happ := (List.append_eq_nil_iff.mp (List.append_right_eq_self.mp hb)).1
      exact absurd happ (separator_ne_nil hsep)
    · rw [List.append_cancel_left (List.append_cancel_left heq)]
      exact hb
  · intro hb
    exact Or.inr ⟨before, hb, rfl⟩

/-- The second ampersand of a `&&` that is removed begins nothing. -/
theorem removed_iff_amp :
    (seg ++ ['&'], sep') ∈ removed (seg :: segs) (['&', '&'] :: seps) ↔
      Counts (seg :: segs) (['&', '&'] :: seps) (seg ++ ['&']) := by
  refine iff_of_false ?_ ?_
  · intro hmem
    rcases mem_removed_cons.mp hmem with ⟨hb, -⟩ | ⟨b, -, heq⟩
    · exact absurd (List.append_right_eq_self.mp hb) (by simp)
    · have hlen := congrArg List.length heq
      simp only [List.length_append, List.length_cons, List.length_nil] at hlen
      omega
  · rintro ⟨-, h⟩
    exact h seg (mem_removed_cons.mpr (Or.inl ⟨rfl, rfl⟩)) rfl

/-- One step of `Cut.removed_iff`. -/
theorem removed_iff_first (h : Unseparated seg (sep ++ rest)) (hopen : openQuote none seg = none)
    (hsep : sep ∈ separators) (hsep' : sep' ∈ separators)
    (hsplit : seg ++ (sep ++ rest) = before ++ (sep' ++ after))
    (hiff : ∀ b, rest = b ++ (sep' ++ after) →
      ((b, sep') ∈ removed segs seps ↔ Counts segs seps b)) :
    (before, sep') ∈ removed (seg :: segs) (sep :: seps) ↔
      Counts (seg :: segs) (sep :: seps) before := by
  have hend : sep ++ rest = sep' ++ after → ((seg, sep') ∈ removed (seg :: segs) (sep :: seps) ↔
      Counts (seg :: segs) (sep :: seps) seg) := by
    intro hmid
    obtain rfl := separator_unique hsep hsep' hmid
    exact removed_iff_end hopen
  rcases List.append_eq_append_iff.mp hsplit with ⟨a, rfl, hmid⟩ | ⟨c, rfl, hmid⟩
  · rcases eq_or_ne a [] with rfl | ha
    · rw [List.append_nil]
      exact hend hmid
    · rcases List.append_eq_append_iff.mp hmid with ⟨b, rfl, hrest⟩ | ⟨c, rfl, hrest⟩
      · exact removed_iff_behind hopen hsep (hiff b hrest)
      · rcases eq_or_ne c [] with rfl | hc
        · have hbehind := removed_iff_behind hopen hsep (hiff [] hrest.symm)
          rw [List.append_nil, List.append_nil] at hbehind
          rw [List.append_nil]
          exact hbehind
        · obtain ⟨rfl, hamp⟩ := separator_split hsep ha hc
          rw [hamp]
          exact removed_iff_amp
  · rcases eq_or_ne c [] with rfl | hc
    · rw [List.append_nil] at hend ⊢
      exact hend hmid.symm
    · refine iff_of_false ?_ (not_counts_inside h hc hsep' ?_)
      · intro hmem
        have hle := length_le_of_removed hmem
        rw [List.length_append] at hle
        exact hc (List.length_eq_zero_iff.mp (by omega))
      · rw [← hmid]
        exact List.prefix_append _ _

end First

/-- The separators removed are those that count. -/
theorem Cut.removed_iff {s : Text} {segs : List Text} (h : Cut s segs) :
    ∃ seps : List Text, seps.length + 1 = segs.length ∧ (∀ sep ∈ seps, sep ∈ separators) ∧
      rejoin segs seps = s ∧
      ∀ before sep after, s = before ++ (sep ++ after) → sep ∈ separators →
        ((before, sep) ∈ removed segs seps ↔ Counts segs seps before) := by
  induction h with
  | @last seg h =>
      refine ⟨[], rfl, by simp, rfl, ?_⟩
      intro before sep after hsplit hsep
      have hne : sep ++ after ≠ [] := by
        unfold separators at hsep
        simp only [List.mem_cons, List.not_mem_nil, or_false] at hsep
        rcases hsep with rfl | rfl <;> simp
      refine iff_of_false (by simp [removed]) ?_
      rintro ⟨hopen, -⟩
      refine h before (sep ++ after) hsplit hne hopen sep hsep ?_
      rw [List.append_nil]
      exact List.prefix_append _ _
  | @first seg sep rest segs h hopen hsep hrest ih =>
      obtain ⟨seps, hlen, hseps, hjoin, hiff⟩ := ih
      refine ⟨sep :: seps, by rw [List.length_cons, List.length_cons, hlen], ?_, ?_, ?_⟩
      · intro sep' hsep'
        rcases List.mem_cons.mp hsep' with rfl | hsep'
        · exact hsep
        · exact hseps sep' hsep'
      · rw [rejoin, hjoin]
      · intro before sep' after hsplit hsep'
        exact removed_iff_first h hopen hsep hsep' hsplit fun b hb => hiff b sep' after hb hsep'

/-- No separator is left in a segment. -/
theorem Cut.unseparated {s : Text} {segs : List Text} (h : Cut s segs) :
    ∀ seg ∈ segs, Unseparated seg [] := by
  have hdrop : ∀ {seg behind : Text}, Unseparated seg behind → Unseparated seg [] := by
    intro seg behind h pre post hsplit hne hopen sep hsep hpre
    rw [List.append_nil] at hpre
    exact h pre post hsplit hne hopen sep hsep (hpre.trans (List.prefix_append _ _))
  induction h with
  | last h =>
      intro seg' hseg'
      rw [List.mem_singleton.mp hseg']
      exact hdrop h
  | first h hopen hsep hrest ih =>
      intro seg' hseg'
      rcases List.mem_cons.mp hseg' with rfl | hseg'
      · exact hdrop h
      · exact ih seg' hseg'

/-- The open quote is the state `tokenize_quoted` is in behind a text. -/
theorem tokenizeFrom_openQuote (before : Text) : ∀ (quote : Option Char) (current : Text),
    ∃ toks current', ∀ after, tokenizeFrom quote current (before ++ after)
      = toks ++ tokenizeFrom (openQuote quote before) current' after := by
  induction before with
  | nil =>
      intro quote current
      exact ⟨[], current, fun _ => rfl⟩
  | cons ch rest ih =>
      intro quote current
      rcases quote with - | q
      · by_cases hquote : ch = '"' ∨ ch = '\''
        · obtain ⟨toks, current', h⟩ := ih (some ch) current
          refine ⟨toks, current', fun after => ?_⟩
          rw [List.cons_append, tokenizeFrom, if_pos hquote, openQuote, if_pos hquote, h]
        · by_cases hspace : Text.isWhitespace ch = true
          · obtain ⟨toks, current', h⟩ := ih none []
            refine ⟨lastToken current ++ toks, current', fun after => ?_⟩
            rw [List.cons_append, tokenizeFrom, if_neg hquote, if_pos hspace, openQuote,
              if_neg hquote, h, lastToken, List.append_assoc]
            split
            · rfl
            · rfl
          · obtain ⟨toks, current', h⟩ := ih none (current ++ [ch])
            refine ⟨toks, current', fun after => ?_⟩
            rw [List.cons_append, tokenizeFrom, if_neg hquote, if_neg hspace, openQuote,
              if_neg hquote, h]
      · by_cases hquote : ch = q
        · obtain ⟨toks, current', h⟩ := ih none current
          refine ⟨toks, current', fun after => ?_⟩
          rw [List.cons_append, tokenizeFrom, if_pos hquote, openQuote, if_pos hquote, h]
        · obtain ⟨toks, current', h⟩ := ih (some q) (current ++ [ch])
          refine ⟨toks, current', fun after => ?_⟩
          rw [List.cons_append, tokenizeFrom, if_neg hquote, openQuote, if_neg hquote, h]

/-- `split_commands` and `tokenize_quoted` read the quotes of a line alike. -/
theorem splitCommands_quotes (s : Text) :
    splitSlices s none 0 (charIndices 0 s) = some (splitCommands s) ∧
      (∀ before, ∃ toks current, ∀ after, tokenizeQuoted (before ++ after)
        = toks ++ tokenizeFrom (openQuote none before) current after) ∧
      (∃ seps : List Text, seps.length + 1 = (splitCommands s).length ∧
        (∀ sep ∈ seps, sep ∈ separators) ∧ rejoin (splitCommands s) seps = s ∧
        ∀ before sep after, s = before ++ (sep ++ after) → sep ∈ separators →
          ((before, sep) ∈ removed (splitCommands s) seps
            ↔ Counts (splitCommands s) seps before)) ∧
      (∀ seg ∈ splitCommands s, Unseparated seg []) ∧
      (splitCommands s).flatMap tokenizeQuoted
        = tokenizeQuoted (List.intercalate [' '] (splitCommands s)) := by
  have hcut : Cut s (splitCommands s) := splitFrom_cut none [] s rfl (unseparated_nil s)
  refine ⟨?_, ?_, hcut.removed_iff, hcut.unseparated, hcut.tokens⟩
  · exact splitSlices_eq none [] s []
  · intro before
    exact tokenizeFrom_openQuote before none []

end Words

end Amaterasu
