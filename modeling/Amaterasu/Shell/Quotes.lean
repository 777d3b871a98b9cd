/-
Lines with several quoted operands.

When the first and the last operand are in quotes of one kind, `cmd_arg` takes the opening
quote of the one and the closing quote of the other, and everything changes sides: what
was quoted stands outside, and what stood between the operands is quoted.
-/
import Amaterasu.Shell.Args

namespace Amaterasu

namespace Words

/-! ### Operands and gaps -/

/-- What stands between two quoted operands: white space, or operands without quotes in
white space. -/
structure Gap (gap : Text) : Prop where
  ne_nil : gap ≠ []
  first : ∀ c ∈ gap.head?, Text.isWhitespace c = true
  last : ∀ c ∈ gap.getLast?, Text.isWhitespace c = true
  plain : ∀ c ∈ gap, ¬ IsQuote c ∧ c ≠ '-'

/-- The text of a quoted operand. -/
structure Operand (body : Text) : Prop where
  ne_nil : body ≠ []
  plain : ∀ c ∈ body, ¬ IsQuote c ∧ c ≠ '-'

/-- Quoted operands without the first and the last quote. -/
def between (q : Char) (body : Text) : List (Text × Text) → Text
  | [] => body
  | (gap, next) :: rest => body ++ q :: (gap ++ q :: between q next rest)

/-- The operands a user means. -/
def meant (body : Text) : List (Text × Text) → List Text
  | [] => [body]
  | (gap, next) :: rest => body :: (tokenizeQuoted gap ++ meant next rest)

section Operands

variable {q : Char} {body : Text} {items : List (Text × Text)}

theorem tokenizeFrom_quoted (hq : q ∉ body) (current s : Text) :
    tokenizeFrom (some q) current (body ++ q :: s) = tokenizeFrom none (current ++ body) s := by
  induction body generalizing current with
  | nil => rw [List.nil_append, tokenizeFrom, if_pos rfl, List.append_nil]
  | cons c body ih =>
      have hne : c ≠ q := by
        rintro rfl
        exact hq List.mem_cons_self
      rw [List.cons_append, tokenizeFrom, if_neg hne, ih fun h => hq (List.mem_cons_of_mem _ h),
        List.append_assoc]
      rfl

theorem tokenizeFrom_plain {s : Text} (hs : ∀ c ∈ s, ¬ IsQuote c ∧ Text.isWhitespace c = false)
    (current t : Text) :
    tokenizeFrom none current (s ++ t) = tokenizeFrom none (current ++ s) t := by
  induction s generalizing current with
  | nil => rw [List.nil_append, List.append_nil]
  | cons c s ih =>
      obtain ⟨hquote, hspace⟩ := hs c List.mem_cons_self
      rw [List.cons_append, tokenizeFrom, if_neg hquote, if_neg (by simp [hspace]),
        ih fun d hd => hs d (List.mem_cons_of_mem _ hd), List.append_assoc]
      rfl

theorem openQuote_plain {s : Text} (hs : ∀ c ∈ s, ¬ IsQuote c) : openQuote none s = none := by
  induction s with
  | nil => rfl
  | cons c s ih =>
      rw [openQuote, if_neg (hs c List.mem_cons_self)]
      exact ih fun d hd => hs d (List.mem_cons_of_mem _ hd)

theorem Gap.tokenizeFrom {gap : Text} (h : Gap gap) (hbody : body ≠ []) (s : Text) :
    Words.tokenizeFrom none body (gap ++ s)
      = body :: (tokenizeQuoted gap ++ Words.tokenizeFrom none [] s) := by
  have hfirst : Words.tokenizeFrom none body (gap ++ s)
      = body :: Words.tokenizeFrom none [] (gap ++ s) := by
    rcases gap with - | ⟨c, gap⟩
    · exact absurd rfl h.ne_nil
    · have hspace := h.first c rfl
      have hcut := tokenizeFrom_space hspace [] (gap ++ s) none body rfl
      have hlead := tokenizeFrom_space hspace [] (gap ++ s) none [] rfl
      rw [List.nil_append] at hcut hlead
      rw [List.cons_append, hcut, hlead, Words.tokenizeFrom, Words.tokenizeFrom, if_neg hbody]
      rfl
  have hlast : Words.tokenizeFrom none [] (gap ++ s)
      = tokenizeQuoted gap ++ Words.tokenizeFrom none [] s := by
    rcases List.eq_nil_or_concat gap with rfl | ⟨gap, c, rfl⟩
    · exact absurd rfl h.ne_nil
    · rw [List.concat_eq_append] at h ⊢
      have hspace := h.last c (by simp)
      have hopen : openQuote none gap = none :=
        openQuote_plain fun d hd => (h.plain d (List.mem_append_left _ hd)).1
      unfold tokenizeQuoted
      rw [List.append_assoc, List.singleton_append, tokenizeFrom_space hspace gap s none [] hopen,
        tokenizeFrom_space hspace gap [] none [] hopen, tokenizeFrom_blank (t := []) (by simp),
        List.append_nil]
  rw [hfirst, hlast]

/-- With all of their quotes, the operands are what is meant. -/
theorem tokenizeFrom_between (hq : IsQuote q) (items : List (Text × Text)) : ∀ body : Text,
    Operand body → (∀ e ∈ items, Gap e.1 ∧ Operand e.2) →
      tokenizeQuoted (q :: (between q body items ++ [q])) = meant body items := by
  induction items with
  | nil =>
      intro body hbody _
      unfold tokenizeQuoted
      rw [between, meant, tokenizeFrom, if_pos hq, tokenizeFrom_quoted, tokenizeFrom,
        List.nil_append, if_neg hbody.ne_nil]
      intro h
      exact (hbody.plain q h).1 hq
  | cons e rest ih =>
      intro body hbody hitems
      obtain ⟨gap, next⟩ := e
      obtain ⟨hgap, hnext⟩ := hitems _ List.mem_cons_self
      have ih := ih next hnext fun e he => hitems e (List.mem_cons_of_mem _ he)
      unfold tokenizeQuoted at ih
      rw [tokenizeFrom, if_pos hq] at ih
      unfold tokenizeQuoted
      rw [between, meant, tokenizeFrom, if_pos hq, List.append_assoc, List.cons_append,
        tokenizeFrom_quoted fun h => (hbody.plain q h).1 hq, List.nil_append, List.append_assoc,
        hgap.tokenizeFrom hbody.ne_nil, List.cons_append, tokenizeFrom, if_pos hq, ih]

/-- A token keeps what it began with. -/
theorem tokenizeFrom_append {current : Text} (hne : current ≠ []) (quote : Option Char) (s : Text) :
    ∃ more toks, tokenizeFrom quote current s = (current ++ more) :: toks := by
  rcases current with - | ⟨a, current⟩
  · exact absurd rfl hne
  · obtain ⟨more, toks, h⟩ := tokenizeFrom_cons s quote current
    exact ⟨more, toks, h a⟩

@[simp] theorem length_tildeExpand (s : Text) : (tildeExpand s).length = s.length := by
  unfold tildeExpand
  split
  · rfl
  · rfl

theorem tildeExpand_space {c : Char} (hc : Text.isWhitespace c = true) (s : Text) :
    tildeExpand (c :: s) = c :: s := by
  unfold tildeExpand
  split
  · rename_i rest heq
    rw [(List.cons.inj heq).1] at hc
    exact absurd hc (by decide)
  · rfl

/-- The first character of an operand is white space or not, expanded or not. -/
theorem head_tildeExpand (c : Char) (s : Text) : ∃ c', tildeExpand (c :: s) = c' :: s ∧
    Text.isWhitespace c' = Text.isWhitespace c := by
  unfold tildeExpand
  split
  · rename_i rest heq
    obtain ⟨rfl, rfl⟩ := List.cons.inj heq
    exact ⟨'/', rfl, by decide⟩
  · exact ⟨c, rfl, rfl⟩

theorem between_eq (q : Char) (body : Text) (items : List (Text × Text)) :
    ∃ more, between q body items = body ++ more := by
  rcases items with - | ⟨⟨gap, next⟩, rest⟩
  · exact ⟨[], (List.append_nil _).symm⟩
  · exact ⟨_, rfl⟩

/-- An operand that begins with white space does not begin a token outside quotes. -/
theorem ne_of_leading (hbody : Operand body) (hspace : ∀ c ∈ body.head?, Text.isWhitespace c = true)
    (hword : ∃ c ∈ body, (!Text.isWhitespace c) = true) (s : Text) (toks : List Text) :
    (body :: toks).map tildeExpand ≠ (tokenizeQuoted (body ++ s)).map tildeExpand := by
  intro heq
  obtain ⟨lead, d, more, hsplit, hlead, hd⟩ := Text.exists_first hword
  have hd' : Text.isWhitespace d = false := by simpa using hd
  rcases lead with - | ⟨c, lead⟩
  · rw [hspace d (by rw [hsplit]; rfl)] at hd'
    exact absurd hd' (by decide)
  · have hblank : ∀ e ∈ c :: lead, Text.isWhitespace e = true := by
      intro e he
      simpa using hlead e he
    have hquote : ¬ IsQuote d := (hbody.plain d (by rw [hsplit]; simp)).1
    obtain ⟨rest, toks', htok⟩ := tokenizeFrom_cons (more ++ s) none []
    have hfirst : tokenizeQuoted (body ++ s) = (d :: rest) :: toks' := by
      rw [hsplit, List.append_assoc, tokenizeFrom_leading hblank]
      unfold tokenizeQuoted
      rw [List.cons_append, tokenizeFrom, if_neg hquote, if_neg (by simp [hd'])]
      exact htok d
    obtain ⟨d', hexpand, hspace'⟩ := head_tildeExpand d rest
    rw [hfirst, List.map_cons, List.map_cons, hexpand, hsplit, List.cons_append,
      tildeExpand_space (hblank c List.mem_cons_self)] at heq
    have hc := (List.cons.inj (List.cons.inj heq).1).1
    rw [← hc, hblank c List.mem_cons_self, hd'] at hspace'
    exact absurd hspace' (by decide)

/-- Nor does one that begins with a word, when a gap comes behind it: the token ends in the
operand, or goes on into the gap. -/
theorem ne_of_word (hq : IsQuote q) {d : Char} (hbody : Operand (d :: body))
    (hd : Text.isWhitespace d = false) {gap : Text} (hgap : Gap gap) (s : Text)
    (toks : List Text) :
    ((d :: body) :: toks).map tildeExpand
      ≠ (tokenizeQuoted (d :: body ++ q :: (gap ++ q :: s))).map tildeExpand := by
  intro heq
  by_cases hword : ∃ c ∈ body, Text.isWhitespace c = true
  · obtain ⟨before, w, after, rfl, hbefore, hw⟩ := Text.exists_first hword
    have hplain : ∀ c ∈ d :: before, ¬ IsQuote c ∧ Text.isWhitespace c = false := by
      intro c hc
      rcases List.mem_cons.mp hc with rfl | hc
      · exact ⟨(hbody.plain c List.mem_cons_self).1, hd⟩
      · exact ⟨(hbody.plain c (by simp [hc])).1, hbefore c hc⟩
    have hfirst : tokenizeFrom none [] (d :: before) = [d :: before] := by
      have h := tokenizeFrom_plain hplain [] []
      rwa [List.append_nil, List.nil_append, tokenizeFrom, if_neg (List.cons_ne_nil _ _)] at h
    unfold tokenizeQuoted at heq
    rw [show d :: (before ++ w :: after) ++ q :: (gap ++ q :: s)
        = (d :: before) ++ w :: (after ++ q :: (gap ++ q :: s)) by simp,
      tokenizeFrom_space hw _ _ none [] (openQuote_plain fun c hc => (hplain c hc).1),
      hfirst] at heq
    have hlen := congrArg List.length (List.cons.inj heq).1
    rw [length_tildeExpand, length_tildeExpand] at hlen
    simp only [List.length_cons, List.length_append] at hlen
    omega
  · have hplain : ∀ c ∈ d :: body, ¬ IsQuote c ∧ Text.isWhitespace c = false := by
      intro c hc
      refine ⟨(hbody.plain c hc).1, ?_⟩
      rcases List.mem_cons.mp hc with rfl | hc
      · exact hd
      · exact Bool.eq_false_iff.mpr fun h => hword ⟨c, hc, h⟩
    obtain ⟨more, toks', htok⟩ := tokenizeFrom_append
      (show d :: body ++ gap ≠ [] by simp) none s
    unfold tokenizeQuoted at heq
    rw [tokenizeFrom_plain hplain, List.nil_append, tokenizeFrom, if_pos hq,
      tokenizeFrom_quoted fun h => (hgap.plain q h).1 hq, htok] at heq
    have hlen := congrArg List.length (List.cons.inj heq).1
    rw [length_tildeExpand, length_tildeExpand] at hlen
    have hpos := List.length_pos_iff.mpr hgap.ne_nil
    simp only [List.length_cons, List.length_append] at hlen
    omega

theorem tildeExpand_eq_self {t : Text} (hne : t ≠ [])
    (hhead : ∀ c ∈ t.head?, Text.isWhitespace c = true) : tildeExpand t = t := by
  rcases t with - | ⟨c, t⟩
  · exact absurd rfl hne
  · exact tildeExpand_space (hhead c rfl) t

/-- White space before the first quote is lost, and what is between that quote and the next
begins a token. -/
theorem tokenizeQuoted_blank_quote (hq : IsQuote q)
    (hblank : ∀ c ∈ body, Text.isWhitespace c = true) {gap : Text} (hgap : Gap gap) (s : Text) :
    tokenizeQuoted (body ++ q :: (gap ++ q :: s)) = tokenizeFrom none gap s := by
  rw [tokenizeFrom_leading hblank]
  unfold tokenizeQuoted
  rw [tokenizeFrom, if_pos hq, tokenizeFrom_quoted fun h => (hgap.plain q h).1 hq,
    List.nil_append]

/-- That token ends where white space follows the second quote. -/
theorem tokenizeFrom_gap_space {gap : Text} (hgap : Gap gap) {c : Char}
    (hc : Text.isWhitespace c = true) (s : Text) :
    tokenizeFrom none gap (c :: s) = gap :: tokenizeQuoted (c :: s) := by
  have hcut := tokenizeFrom_space hc [] s none gap rfl
  have hlead := tokenizeFrom_space hc [] s none [] rfl
  rw [List.nil_append] at hcut hlead
  unfold tokenizeQuoted
  rw [hcut, hlead, tokenizeFrom, tokenizeFrom, if_neg hgap.ne_nil]
  rfl

/-- And goes on where something else does. -/
theorem tokenizeFrom_gap_word (gap : Text) {c : Char} (hquote : ¬ IsQuote c)
    (hc : Text.isWhitespace c = false) (s : Text) :
    ∃ more toks, tokenizeFrom none gap (c :: s) = (gap ++ [c] ++ more) :: toks := by
  rw [tokenizeFrom, if_neg hquote, if_neg (by simp [hc])]
  exact tokenizeFrom_append (show gap ++ [c] ≠ [] by simp) none s

theorem blank_of_no_word (h : ¬ ∃ c ∈ body, (!Text.isWhitespace c) = true) :
    ∀ c ∈ body, Text.isWhitespace c = true := by
  intro c hc
  by_contra hspace
  exact h ⟨c, hc, by simpa using hspace⟩

/-- A blank operand is not what a token is that goes on with the next one. -/
theorem ne_of_gap_word (hblank : ∀ c ∈ body, Text.isWhitespace c = true) {gap : Text}
    (hgap : Gap gap) {c : Char} (hquote : ¬ IsQuote c) (hc : Text.isWhitespace c = false)
    (s : Text) (toks : List Text) :
    body :: toks ≠ (tokenizeFrom none gap (c :: s)).map tildeExpand := by
  intro heq
  obtain ⟨more, toks', htok⟩ := tokenizeFrom_gap_word gap hquote hc s
  have hspace : ∀ d ∈ (gap ++ [c] ++ more).head?, Text.isWhitespace d = true := by
    intro d hd
    rw [List.append_assoc, List.head?_append_of_ne_nil _ hgap.ne_nil] at hd
    exact hgap.first d hd
  rw [htok, List.map_cons, tildeExpand_eq_self (by simp) hspace] at heq
  have hmem : c ∈ body := by
    rw [(List.cons.inj heq).1]
    simp
  rw [hblank c hmem] at hc
  exact absurd hc (by decide)

/-- Where it is a token of its own, the rest goes on as the operands do. -/
theorem tail_of_gap_space (hblank : ∀ c ∈ body, Text.isWhitespace c = true) {gap : Text}
    (hgap : Gap gap) {c : Char} (hc : Text.isWhitespace c = true) {s : Text} {toks : List Text}
    (heq : body :: (tokenizeQuoted gap ++ toks).map tildeExpand
      = (tokenizeFrom none gap (c :: s)).map tildeExpand) :
    toks.map tildeExpand = (tokenizeQuoted (c :: s)).map tildeExpand := by
  rw [tokenizeFrom_gap_space hgap hc, List.map_cons,
    tildeExpand_eq_self hgap.ne_nil hgap.first] at heq
  obtain ⟨rfl, htail⟩ := List.cons.inj heq
  rwa [tokenizeQuoted.eq_def body, tokenizeFrom_blank hblank, List.nil_append] at htail

/-- Without the first and the last quote, they are something else. -/
theorem meant_ne (hq : IsQuote q) (items : List (Text × Text)) : ∀ body : Text, Operand body →
    (∀ e ∈ items, Gap e.1 ∧ Operand e.2) →
    (items = [] → ∀ c ∈ body.head?, Text.isWhitespace c = true) →
    (meant body items).map tildeExpand
      ≠ (tokenizeQuoted (between q body items)).map tildeExpand := by
  induction items with
  | nil =>
      intro body hbody _ hspace
      by_cases hword : ∃ c ∈ body, (!Text.isWhitespace c) = true
      · have h := ne_of_leading hbody (hspace rfl) hword [] []
        rwa [List.append_nil] at h
      · intro heq
        unfold tokenizeQuoted at heq
        rw [meant, between, tokenizeFrom_blank (blank_of_no_word hword)] at heq
        exact absurd heq (by simp)
  | cons e rest ih =>
      intro body hbody hitems _
      obtain ⟨gap, next⟩ := e
      obtain ⟨hgap, hnext⟩ : Gap gap ∧ Operand next := hitems _ List.mem_cons_self
      by_cases hword : ∃ c ∈ body, (!Text.isWhitespace c) = true
      · rcases body with - | ⟨d, body⟩
        · exact absurd rfl hbody.ne_nil
        · by_cases hd : Text.isWhitespace d = true
          · refine ne_of_leading hbody ?_ hword _ _
            intro c hc
            rw [← Option.some.inj hc]
            exact hd
          · exact ne_of_word hq hbody (Bool.eq_false_iff.mpr hd) hgap _ _
      · have hblank := blank_of_no_word hword
        obtain ⟨more, hbetween⟩ := between_eq q next rest
        have hbodySelf := tildeExpand_eq_self hbody.ne_nil fun c hc =>
          hblank c (List.mem_of_head? hc)
        intro heq
        rw [between, tokenizeQuoted_blank_quote hq hblank hgap, meant, List.map_cons,
          hbodySelf] at heq
        obtain ⟨c, next', hnextCons⟩ := List.exists_cons_of_ne_nil hnext.ne_nil
        have hcons : between q next rest = c :: (next' ++ more) := by
          rw [hbetween, hnextCons, List.cons_append]
        rw [hcons] at heq
        by_cases hc : Text.isWhitespace c = true
        · -- The gap is a token of its own, and the next operand begins like this one.
          have htail := tail_of_gap_space hblank hgap hc heq
          rw [← hcons] at htail
          refine ih next hnext (fun e he => hitems e (List.mem_cons_of_mem _ he)) ?_ htail
          intro _ d hd
          rw [hnextCons] at hd
          rw [← Option.some.inj hd]
          exact hc
        · have hquote : ¬ IsQuote c := (hnext.plain c (by rw [hnextCons]; simp)).1
          exact ne_of_gap_word hblank hgap hquote (Bool.eq_false_iff.mpr hc) _ _ heq

theorem chars_of_tokenizeQuoted {s tok : Text} (h : tok ∈ tokenizeQuoted s) : ∀ c ∈ tok, c ∈ s := by
  intro c hc
  have hflat : c ∈ (tokenizeQuoted s).flatten := List.mem_flatten.mpr ⟨tok, h, hc⟩
  unfold tokenizeQuoted at hflat
  rw [flatten_tokenizeFrom, List.nil_append] at hflat
  exact (kept_sublist s none).subset hflat

/-- Without dashes there are only operands. -/
theorem parseTokens_positional (toks : List Text) : ∀ args : ParsedArgs,
    (∀ tok ∈ toks, '-' ∉ tok) → parseTokens false toks args
      = { args with positional := args.positional ++ toks.map tildeExpand } := by
  induction toks with
  | nil =>
      intro args _
      rw [parseTokens, List.map_nil, List.append_nil]
  | cons tok rest ih =>
      intro args h
      have hhead : tok.head? ≠ some '-' := fun hc =>
        h tok List.mem_cons_self (List.mem_of_head? hc)
      rw [parseTokens, if_pos (Or.inr (Or.inl hhead)),
        ih _ fun t ht => h t (List.mem_cons_of_mem _ ht), List.append_assoc]
      rfl

theorem parseArgs_positional {s : Text} (h : '-' ∉ s) :
    parseArgs s = ⟨[], [], (tokenizeQuoted s).map tildeExpand⟩ := by
  unfold parseArgs
  rw [parseTokens_positional]
  · rfl
  · intro tok htok hmem
    exact h (chars_of_tokenizeQuoted htok _ hmem)

theorem IsQuote.ne_dash (hq : IsQuote q) : q ≠ '-' := by
  rcases hq with rfl | rfl
  · decide
  · decide

theorem dash_notMem_between (hq : IsQuote q) (items : List (Text × Text)) : ∀ body : Text,
    Operand body → (∀ e ∈ items, Gap e.1 ∧ Operand e.2) → '-' ∉ between q body items := by
  induction items with
  | nil =>
      intro body hbody _ hmem
      exact (hbody.plain _ hmem).2 rfl
  | cons e rest ih =>
      intro body hbody hitems hmem
      obtain ⟨gap, next⟩ := e
      obtain ⟨hgap, hnext⟩ := hitems _ List.mem_cons_self
      rw [between] at hmem
      simp only [List.mem_append, List.mem_cons, hq.ne_dash.symm, false_or] at hmem
      rcases hmem with hmem | hmem | hmem
      · exact (hbody.plain _ hmem).2 rfl
      · exact (hgap.plain _ hmem).2 rfl
      · exact ih next hnext (fun e he => hitems e (List.mem_cons_of_mem _ he)) hmem

/-- A line whose first and last operands are quoted is not parsed as it is meant. -/
theorem parseArgs_between_ne (hq : IsQuote q) (hbody : Operand body)
    (hitems : ∀ e ∈ items, Gap e.1 ∧ Operand e.2) (hne : items ≠ []) :
    parseArgs (unquote (Text.trim (q :: (between q body items ++ [q]))))
      ≠ parseArgs (q :: (between q body items ++ [q])) := by
  have htrim :
      Text.trim (q :: (between q body items ++ [q])) = q :: (between q body items ++ [q]) := by
    apply Text.trim_eq_self (List.cons_ne_nil _ _)
    · intro c hc
      rw [← Option.some.inj hc]
      exact hq.not_space
    · intro c hc
      rw [← List.cons_append, List.getLast?_append] at hc
      rw [← Option.some.inj hc]
      exact hq.not_space
  have hdash := dash_notMem_between hq items body hbody hitems
  have hdash' : '-' ∉ q :: (between q body items ++ [q]) := by
    simp [hq.ne_dash.symm, hdash]
  rw [htrim, unquote_pair hq, parseArgs_positional hdash, parseArgs_positional hdash',
    tokenizeFrom_between hq items body hbody hitems]
  intro heq
  refine meant_ne hq items body hbody hitems (fun h => absurd h hne) ?_
  injection heq with _ _ hpositional
  exact hpositional.symm

end Operands

/--
**Quotes, from the line to the command.**  The handler parses what the line says whenever
the argument is intact.  Unless the quote of the pair that `cmd_arg` strips occurs inside
the pair, only then; and where it does because the first and the last of several operands
are quoted alike, never.
-/
theorem parse_args_cmd_arg {name : Text} (hname : ∀ c ∈ name, Text.isWhitespace c = false) :
    (∀ rest, Intact rest →
      parseArgs ((cmdArg (name ++ ' ' :: rest)).getD []) = parseArgs rest) ∧
    (∀ rest, (∀ q body, IsQuote q → Text.trim rest = q :: (body ++ [q]) → q ∉ body) →
      (parseArgs ((cmdArg (name ++ ' ' :: rest)).getD []) = parseArgs rest ↔ Intact rest)) ∧
    ∀ q body items, IsQuote q → Operand body → (∀ e ∈ items, Gap e.1 ∧ Operand e.2) →
      items ≠ [] →
      parseArgs ((cmdArg (name ++ ' ' :: q :: (between q body items ++ [q]))).getD [])
        ≠ parseArgs (q :: (between q body items ++ [q])) := by
  refine ⟨?_, ?_, ?_⟩
  · intro rest h
    rw [parseArgs_cmdArg hname]
    exact h.parseArgs_eq
  · intro rest hsame
    rw [parseArgs_cmdArg hname]
    exact ⟨Intact.of_parseArgs_eq hsame, Intact.parseArgs_eq⟩
  · intro q body items hq hbody hitems hne
    rw [parseArgs_cmdArg hname]
    exact parseArgs_between_ne hq hbody hitems hne

/-- `grep 'a b' cd`. -/
theorem parse_args_cmd_arg_plain :
    parseArgs ((cmdArg "grep 'a b' cd".toList).getD []) = parseArgs "'a b' cd".toList ∧
      (parseArgs "'a b' cd".toList).positional = ["a b".toList, "cd".toList] := by
  have hname : ∀ c ∈ ['g', 'r', 'e', 'p'], Text.isWhitespace c = false := by
    simp only [List.forall_mem_cons, List.not_mem_nil, false_implies, implies_true, and_true]
    decide
  have htrim : Text.trim "'a b' cd".toList = "'a b' cd".toList := by decide +kernel
  refine ⟨(parse_args_cmd_arg hname).1 "'a b' cd".toList ⟨?_, ?_⟩, by decide +kernel⟩
  · rw [htrim]
    exact fun _ _ _ => rfl
  · intro q body hq hpair
    rw [htrim] at hpair
    -- The last character is no quote.
    have hlast := congrArg List.getLast? hpair
    rw [List.getLast?_cons, List.getLast?_concat] at hlast
    obtain rfl : 'd' = q := by simpa using hlast
    exact absurd hq (by decide)

/-- `grep 'a b' 'c d'`: the pattern, which the quotes hold together, is taken apart. -/
theorem grep_quotes_lost :
    parseArgs ((cmdArg "grep 'a b' 'c d'".toList).getD []) ≠ parseArgs "'a b' 'c d'".toList ∧
    (parseArgs ((cmdArg "grep 'a b' 'c d'".toList).getD [])).positional
      = ["a".toList, "b c".toList, "d".toList] ∧
    (parseArgs "'a b' 'c d'".toList).positional = ["a b".toList, "c d".toList] := by
  decide +kernel

end Words

end Amaterasu
