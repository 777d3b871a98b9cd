/-
The arguments of a command, from the line to the parsed flags and operands.

Two functions read the quotes of a line.  `cmd_arg` strips one pair when the first and
the last character of the whole argument are the same quote; the handler then runs
`tokenize_quoted` on what is left.  What the second one sees of the quotes the first
one took away is what this file is about.
-/
import Amaterasu.Shell.Words

namespace Amaterasu

namespace Words

/-! ### `parse_args` -/

structure ParsedArgs where
  flags : List Char
  flagVals : List (Char × Text)
  positional : List Text
  deriving DecidableEq, Repr

/-- The loop of `tokenize_quoted`: the open quote, and the token read so far. -/
def tokenizeFrom : Option Char → Text → Text → List Text
  | _, current, [] => if current = [] then [] else [current]
  | some q, current, ch :: rest =>
      if ch = q then tokenizeFrom none current rest
      else tokenizeFrom (some q) (current ++ [ch]) rest
  | none, current, ch :: rest =>
      if ch = '"' ∨ ch = '\'' then tokenizeFrom (some ch) current rest
      else if Text.isWhitespace ch then
        if current = [] then tokenizeFrom none [] rest
        else current :: tokenizeFrom none [] rest
      else tokenizeFrom none (current ++ [ch]) rest

def tokenizeQuoted (input : Text) : List Text := tokenizeFrom none [] input

/-- The letters of one token, with the token behind it, and whether that one was taken
for a value. -/
def parseFlags (next : Option Text) : List Char → ParsedArgs → ParsedArgs × Bool
  | [], args => (args, false)
  | [flag], args =>
      match next with
      | some tok =>
          if (tok.head?.any Char.isDigit) = true then
            ({ args with flagVals := args.flagVals ++ [(flag, tok)] }, true)
          else ({ args with flags := args.flags ++ [flag] }, false)
      | none => ({ args with flags := args.flags ++ [flag] }, false)
  | flag :: ch :: rest, args =>
      if ch.isDigit then ({ args with flagVals := args.flagVals ++ [(flag, ch :: rest)] }, false)
      else parseFlags next (ch :: rest) { args with flags := args.flags ++ [flag] }

/-- The loop of `parse_args`. -/
def parseTokens : Bool → List Text → ParsedArgs → ParsedArgs
  | _, [], args => args
  | stop, tok :: rest, args =>
      if stop = true ∨ tok.head? ≠ some '-' ∨ tok = ['-'] then
        parseTokens stop rest { args with positional := args.positional ++ [tildeExpand tok] }
      else if tok = ['-', '-'] then parseTokens true rest args
      else
        let parsed := parseFlags rest.head? tok.tail args
        match rest with
        | [] => parsed.1
        | next :: rest' =>
            if parsed.2 = true then parseTokens stop rest' parsed.1
            else parseTokens stop (next :: rest') parsed.1

def parseArgs (input : Text) : ParsedArgs :=
  parseTokens false (tokenizeQuoted input) ⟨[], [], []⟩

/-! ### What a token is made of -/

/-- The quote that is open behind a text. -/
def openQuote : Option Char → Text → Option Char
  | quote, [] => quote
  | some q, ch :: rest => openQuote (if ch = q then none else some q) rest
  | none, ch :: rest => openQuote (if ch = '"' ∨ ch = '\'' then some ch else none) rest

/-- The characters that end up in tokens. -/
def kept : Option Char → Text → Text
  | _, [] => []
  | some q, ch :: rest => if ch = q then kept none rest else ch :: kept (some q) rest
  | none, ch :: rest =>
      if ch = '"' ∨ ch = '\'' then kept (some ch) rest
      else if Text.isWhitespace ch then kept none rest
      else ch :: kept none rest

theorem flatten_tokenizeFrom (s : Text) : ∀ (quote : Option Char) (current : Text),
    (tokenizeFrom quote current s).flatten = current ++ kept quote s := by
  induction s with
  | nil =>
      intro quote current
      rw [tokenizeFrom, kept, List.append_nil]
      split
      · rename_i h
        rw [h]
        rfl
      · simp
  | cons ch rest ih =>
      intro quote current
      rcases quote with - | q
      · rw [tokenizeFrom, kept]
        split
        · exact ih _ _
        · split
          · split
            · rename_i h
              rw [ih, h]
            · rw [List.flatten_cons, ih, List.nil_append]
          · rw [ih, List.append_assoc]
            rfl
      · rw [tokenizeFrom, kept]
        split
        · exact ih _ _
        · rw [ih, List.append_assoc]
          rfl

theorem kept_append (s t : Text) : ∀ quote : Option Char,
    kept quote (s ++ t) = kept quote s ++ kept (openQuote quote s) t := by
  induction s with
  | nil =>
      intro quote
      rw [kept, openQuote]
      rfl
  | cons ch rest ih =>
      intro quote
      rcases quote with - | q
      · rw [List.cons_append, kept, kept, openQuote]
        split
        · exact ih _
        · split
          · exact ih _
          · rw [ih]
            rfl
      · rw [List.cons_append, kept, kept, openQuote]
        split
        · exact ih _
        · rw [ih]
          rfl

theorem kept_sublist (s : Text) : ∀ quote : Option Char, (kept quote s).Sublist s := by
  induction s with
  | nil =>
      intro quote
      exact List.Sublist.refl _
  | cons ch rest ih =>
      intro quote
      rcases quote with - | q
      · rw [kept]
        split
        · exact (ih _).cons _
        · split
          · exact (ih _).cons _
          · exact (ih _).cons_cons _
      · rw [kept]
        split
        · exact (ih _).cons _
        · exact (ih _).cons_cons _

/-- A token begins with what was read of it. -/
theorem tokenizeFrom_cons (s : Text) : ∀ (quote : Option Char) (current : Text),
    ∃ more toks, ∀ a, tokenizeFrom quote (a :: current) s = (a :: (current ++ more)) :: toks := by
  induction s with
  | nil =>
      intro quote current
      refine ⟨[], [], fun a => ?_⟩
      rw [tokenizeFrom, if_neg (List.cons_ne_nil _ _), List.append_nil]
  | cons ch rest ih =>
      intro quote current
      have hgrow : ∀ quote', ∃ more toks, ∀ a,
          tokenizeFrom quote' (a :: current ++ [ch]) rest = (a :: (current ++ more)) :: toks := by
        intro quote'
        obtain ⟨more, toks, h⟩ := ih quote' (current ++ [ch])
        refine ⟨ch :: more, toks, fun a => ?_⟩
        rw [List.cons_append, h a, List.append_assoc]
        rfl
      rcases quote with - | q
      · by_cases hquote : ch = '"' ∨ ch = '\''
        · obtain ⟨more, toks, h⟩ := ih (some ch) current
          refine ⟨more, toks, fun a => ?_⟩
          rw [tokenizeFrom, if_pos hquote, h a]
        · by_cases hspace : Text.isWhitespace ch = true
          · refine ⟨[], tokenizeFrom none [] rest, fun a => ?_⟩
            rw [tokenizeFrom, if_neg hquote, if_pos hspace, if_neg (List.cons_ne_nil _ _),
              List.append_nil]
          · obtain ⟨more, toks, h⟩ := hgrow none
            refine ⟨more, toks, fun a => ?_⟩
            rw [tokenizeFrom, if_neg hquote, if_neg hspace, h a]
      · by_cases hquote : ch = q
        · obtain ⟨more, toks, h⟩ := ih none current
          refine ⟨more, toks, fun a => ?_⟩
          rw [tokenizeFrom, if_pos hquote, h a]
        · obtain ⟨more, toks, h⟩ := hgrow (some q)
          refine ⟨more, toks, fun a => ?_⟩
          rw [tokenizeFrom, if_neg hquote, h a]

/-- White space outside quotes separates. -/
theorem tokenizeFrom_space {c : Char} (hc : Text.isWhitespace c = true) (s t : Text) :
    ∀ (quote : Option Char) (current : Text), openQuote quote s = none →
      tokenizeFrom quote current (s ++ c :: t)
        = tokenizeFrom quote current s ++ tokenizeFrom none [] t := by
  have hne : ¬ (c = '"' ∨ c = '\'') := by
    rintro (rfl | rfl)
    · exact absurd hc (by decide)
    · exact absurd hc (by decide)
  induction s with
  | nil =>
      intro quote current hopen
      obtain rfl : quote = none := hopen
      rw [List.nil_append, tokenizeFrom, tokenizeFrom, if_neg hne, if_pos hc]
      split
      · rfl
      · rfl
  | cons ch rest ih =>
      intro quote current hopen
      rcases quote with - | q
      · rw [openQuote] at hopen
        rw [List.cons_append, tokenizeFrom, tokenizeFrom]
        split
        · rename_i h
          rw [if_pos h] at hopen
          exact ih _ _ hopen
        · rename_i h
          rw [if_neg h] at hopen
          split
          · split
            · exact ih _ _ hopen
            · rw [ih _ _ hopen]
              rfl
          · exact ih _ _ hopen
      · rw [openQuote] at hopen
        rw [List.cons_append, tokenizeFrom, tokenizeFrom]
        split
        · rename_i h
          rw [if_pos h] at hopen
          exact ih _ _ hopen
        · rename_i h
          rw [if_neg h] at hopen
          exact ih _ _ hopen

theorem tokenizeFrom_blank {t : Text} (ht : ∀ c ∈ t, Text.isWhitespace c = true) :
    tokenizeFrom none [] t = [] := by
  induction t with
  | nil => rfl
  | cons c t ih =>
      have h := tokenizeFrom_space (ht c List.mem_cons_self) [] t none [] rfl
      rw [List.nil_append] at h
      rw [h, ih fun d hd => ht d (List.mem_cons_of_mem _ hd)]
      rfl

/-- White space at the end of a text is no part of a token, outside quotes. -/
theorem tokenizeFrom_trailing {s t : Text} (hs : openQuote none s = none)
    (ht : ∀ c ∈ t, Text.isWhitespace c = true) : tokenizeQuoted (s ++ t) = tokenizeQuoted s := by
  unfold tokenizeQuoted
  rcases t with - | ⟨c, t⟩
  · rw [List.append_nil]
  · rw [tokenizeFrom_space (ht c List.mem_cons_self) s t none [] hs,
      tokenizeFrom_blank fun d hd => ht d (List.mem_cons_of_mem _ hd), List.append_nil]

theorem tokenizeFrom_leading {l s : Text} (hl : ∀ c ∈ l, Text.isWhitespace c = true) :
    tokenizeQuoted (l ++ s) = tokenizeQuoted s := by
  induction l with
  | nil => rfl
  | cons c l ih =>
      have h := tokenizeFrom_space (hl c List.mem_cons_self) [] (l ++ s) none [] rfl
      rw [List.nil_append] at h
      rw [← ih fun d hd => hl d (List.mem_cons_of_mem _ hd)]
      exact h

/-- What was read of the last token. -/
def lastToken (current : Text) : List Text := if current = [] then [] else [current]

/-- A text with nothing in it that ends a token. -/
theorem tokenizeFrom_word {q : Char} (hq : q = '"' ∨ q = '\'') {s : Text}
    (hs : ∀ c ∈ s, Text.isWhitespace c = false ∧ (c = '"' ∨ c = '\'' → c = q)) :
    ∀ (quote : Option Char) (current : Text), quote = none ∨ quote = some q →
      tokenizeFrom quote current s = lastToken (current ++ s.filter (· ≠ q)) := by
  induction s with
  | nil =>
      intro quote current _
      rw [tokenizeFrom, List.filter_nil, List.append_nil]
      rfl
  | cons ch rest ih =>
      intro quote current hquote
      obtain ⟨hspace, hother⟩ := hs ch List.mem_cons_self
      have ih := ih fun c hc => hs c (List.mem_cons_of_mem _ hc)
      by_cases hch : ch = q
      · rw [List.filter_cons_of_neg (by simpa using hch)]
        rcases hquote with rfl | rfl
        · rw [tokenizeFrom, if_pos (hch.symm ▸ hq)]
          exact ih _ _ (Or.inr (congrArg some hch))
        · rw [tokenizeFrom, if_pos hch]
          exact ih _ _ (Or.inl rfl)
      · rw [List.filter_cons_of_pos (by simpa using hch), List.append_cons]
        rcases hquote with rfl | rfl
        · rw [tokenizeFrom, if_neg fun h => hch (hother h), if_neg (by simp [hspace])]
          exact ih _ _ (Or.inl rfl)
        · rw [tokenizeFrom, if_neg hch]
          exact ih _ _ (Or.inr rfl)

/-! ### What the parsed arguments are made of -/

/-- All characters of the flags, their values and the operands. -/
def ParsedArgs.chars (args : ParsedArgs) : Text :=
  args.flags ++ (args.flagVals.flatMap fun e => e.1 :: e.2) ++ args.positional.flatten

section Count

variable {p : Char → Bool}

theorem countP_parseFlags (next : Option Text) (letters : List Char) : ∀ args : ParsedArgs,
    (parseFlags next letters args).1.chars.countP p
      = args.chars.countP p + letters.countP p +
        (if (parseFlags next letters args).2 = true then (next.getD []).countP p else 0) := by
  induction letters with
  | nil =>
      intro args
      simp [parseFlags]
  | cons flag rest ih =>
      intro args
      rcases rest with - | ⟨ch, rest⟩
      · rcases next with - | tok
        · simp only [parseFlags, ParsedArgs.chars, List.countP_append, List.countP_cons,
            List.countP_nil]
          simp
          omega
        · rw [parseFlags]
          split
          · simp only [ParsedArgs.chars, List.flatMap_append, List.flatMap_cons, List.flatMap_nil,
              List.countP_append, List.countP_cons, List.countP_nil, Option.getD_some]
            simp
            omega
          · simp only [ParsedArgs.chars, List.countP_append, List.countP_cons, List.countP_nil]
            simp
            omega
      · rw [parseFlags]
        split
        · simp only [ParsedArgs.chars, List.flatMap_append, List.flatMap_cons, List.flatMap_nil,
            List.countP_append, List.countP_cons, List.countP_nil]
          simp
          omega
        · rw [ih]
          simp only [ParsedArgs.chars, List.countP_append, List.countP_cons, List.countP_nil]
          simp
          omega

theorem countP_tildeExpand (htilde : p '~' = p '/') (s : Text) :
    (tildeExpand s).countP p = s.countP p := by
  unfold tildeExpand
  split
  · rw [List.countP_cons, List.countP_cons, htilde]
  · rfl

/-- But for dashes and tildes, nothing of a token is lost. -/
theorem countP_parseTokens (hdash : p '-' = false) (htilde : p '~' = p '/') (n : Nat) :
    ∀ (stop : Bool) (toks : List Text) (args : ParsedArgs), toks.length ≤ n →
      (parseTokens stop toks args).chars.countP p
        = args.chars.countP p + toks.flatten.countP p := by
  induction n with
  | zero =>
      intro stop toks args hlen
      obtain rfl := List.length_eq_zero_iff.mp (Nat.le_zero.mp hlen)
      rfl
  | succ n ih =>
      intro stop toks args hlen
      rcases toks with - | ⟨tok, rest⟩
      · rfl
      · rw [List.length_cons] at hlen
        rw [parseTokens, List.flatten_cons, List.countP_append]
        split
        · rw [ih _ _ _ (by omega)]
          have htok := countP_tildeExpand htilde tok
          simp only [ParsedArgs.chars, List.flatten_append, List.flatten_cons, List.flatten_nil,
            List.countP_append, List.countP_nil]
          omega
        · rename_i hflag
          split
          · rename_i hstop
            rw [ih _ _ _ (by omega), hstop]
            simp [hdash]
          · have htail : tok.countP p = tok.tail.countP p := by
              rcases tok with - | ⟨c, tok⟩
              · rfl
              · have hc : c = '-' := by
                  by_contra hne
                  exact hflag (Or.inr (Or.inl (by simpa using hne)))
                rw [hc, List.countP_cons_of_neg (by simp [hdash]), List.tail_cons]
            have hflags := countP_parseFlags (p := p) rest.head? tok.tail args
            rcases rest with - | ⟨next, rest⟩
            · dsimp only
              rw [hflags, htail]
              split
              · rfl
              · rfl
            · dsimp only
              rw [List.length_cons] at hlen
              split
              · rename_i hused
                rw [hused] at hflags
                rw [ih _ _ _ (by omega), hflags, htail]
                simp
                omega
              · rename_i hused
                rw [if_neg hused] at hflags
                rw [ih _ _ _ (by simp; omega), hflags, htail]
                omega

theorem countP_parseArgs (hdash : p '-' = false) (htilde : p '~' = p '/') (s : Text) :
    (parseArgs s).chars.countP p = (kept none s).countP p := by
  unfold parseArgs tokenizeQuoted
  rw [countP_parseTokens hdash htilde _ _ _ _ (Nat.le_refl _), flatten_tokenizeFrom]
  simp [ParsedArgs.chars]

/-- Outside quotes, white space and quotes get lost. -/
theorem countP_kept_lt (s : Text)
    (hlost : ∃ c ∈ s, Text.isWhitespace c = true ∨ c = '"' ∨ c = '\'')
    (hp : ∀ c, p c = true ↔ Text.isWhitespace c = true ∨ c = '"' ∨ c = '\'') :
    (kept none s).countP p < s.countP p := by
  induction s with
  | nil =>
      obtain ⟨c, hc, -⟩ := hlost
      exact absurd hc List.not_mem_nil
  | cons ch rest ih =>
      rw [kept]
      by_cases hch : p ch = true
      · rw [List.countP_cons_of_pos hch]
        split
        · exact Nat.lt_succ_of_le (kept_sublist rest _).countP_le
        · rename_i hquote
          rw [if_pos (((hp ch).mp hch).resolve_right hquote)]
          exact Nat.lt_succ_of_le (kept_sublist rest _).countP_le
      · have hplain := fun h => hch ((hp ch).mpr h)
        rw [if_neg fun h => hplain (Or.inr h), if_neg fun h => hplain (Or.inl h),
          List.countP_cons_of_neg hch, List.countP_cons_of_neg hch]
        obtain ⟨c, hc, hlost⟩ := hlost
        rcases List.mem_cons.mp hc with rfl | hc
        · exact absurd hlost hplain
        · exact ih ⟨c, hc, hlost⟩

end Count

/-! ### From the line to the handler -/

/-- A quote. -/
abbrev IsQuote (c : Char) : Prop := c = '"' ∨ c = '\''

theorem unquote_pair {q : Char} (hq : IsQuote q) (body : Text) :
    unquote (q :: (body ++ [q])) = body := by
  have hlen : 2 ≤ Text.byteLen (q :: (body ++ [q])) := by
    have hwidth := q.utf8Size_pos
    simp only [Text.byteLen, List.map_cons, List.map_append, List.map_nil, List.sum_cons,
      List.sum_append, List.sum_nil]
    omega
  have hends : (q :: (body ++ [q])).head? = some q ∧ (q :: (body ++ [q])).getLast? = some q := by
    refine ⟨rfl, ?_⟩
    rw [← List.cons_append, List.getLast?_append]
    rfl
  unfold unquote
  rw [if_pos, List.tail_cons, List.dropLast_concat]
  refine ⟨hlen, ?_⟩
  rw [hends.1, hends.2]
  rcases hq with rfl | rfl
  · exact Or.inl ⟨rfl, rfl⟩
  · exact Or.inr ⟨rfl, rfl⟩

theorem unquote_cases (raw : Text) :
    (∃ q body, IsQuote q ∧ raw = q :: (body ++ [q])) ∨ unquote raw = raw := by
  unfold unquote
  split
  · rename_i h
    obtain ⟨hlen, hends⟩ := h
    refine Or.inl ?_
    obtain ⟨q, hq, hhead, hlast⟩ : ∃ q, IsQuote q ∧ raw.head? = some q ∧ raw.getLast? = some q := by
      rcases hends with ⟨hhead, hlast⟩ | ⟨hhead, hlast⟩
      · exact ⟨_, Or.inl rfl, hhead, hlast⟩
      · exact ⟨_, Or.inr rfl, hhead, hlast⟩
    obtain ⟨tl, rfl⟩ := List.head?_eq_some_iff.mp hhead
    rcases List.eq_nil_or_concat tl with rfl | ⟨body, last, rfl⟩
    · exfalso
      have hwidth : Text.byteLen [q] = 1 := by
        rcases hq with rfl | rfl
        · rfl
        · rfl
      omega
    · rw [List.concat_eq_append, ← List.cons_append, List.getLast?_append] at hlast
      obtain rfl : last = q := Option.some.inj hlast
      exact ⟨last, body, hq, by rw [List.concat_eq_append]⟩
  · exact Or.inr rfl

theorem parseArgs_tildeExpand (s : Text) : parseArgs (tildeExpand s) = parseArgs s := by
  unfold tildeExpand
  split
  · rename_i rest
    obtain ⟨more, toks, h⟩ := tokenizeFrom_cons rest none []
    have hstart : ∀ a : Char, ¬ (a = '"' ∨ a = '\'') → Text.isWhitespace a = false →
        tokenizeQuoted (a :: rest) = (a :: more) :: toks := by
      intro a hquote hspace
      unfold tokenizeQuoted
      rw [tokenizeFrom, if_neg hquote, if_neg (by simp [hspace])]
      exact h a
    unfold parseArgs
    rw [hstart '/' (by decide) (by decide), hstart '~' (by decide) (by decide), parseTokens,
      parseTokens, if_pos (Or.inr (Or.inl (by simp))), if_pos (Or.inr (Or.inl (by simp)))]
    rfl
  · rfl

theorem parseArgs_cmdArg {name : Text} (hname : ∀ c ∈ name, Text.isWhitespace c = false)
    (rest : Text) :
    parseArgs ((cmdArg (name ++ ' ' :: rest)).getD []) = parseArgs (unquote (Text.trim rest)) := by
  have hall : ∀ c ∈ name, (!Text.isWhitespace c) = true := by
    intro c hc
    rw [hname c hc]
    rfl
  unfold cmdArg
  rw [List.dropWhile_append_of_pos hall, List.dropWhile_cons_of_neg (by decide)]
  show parseArgs ((if Text.trim rest = [] then none
    else some (tildeExpand (unquote (Text.trim rest)))).getD []) = _
  split
  · rename_i h
    rw [h]
    rfl
  · rw [Option.getD_some, parseArgs_tildeExpand]

/-- What the two readings of the quotes of an argument agree on. -/
structure Intact (rest : Text) : Prop where
  /-- White space at the end is not inside quotes. -/
  ends : ∀ c ∈ rest.getLast?, Text.isWhitespace c = true → openQuote none (Text.trim rest) = none
  /-- Between a pair of quotes that `cmd_arg` strips, there is nothing the pair protects. -/
  pair : ∀ q body, IsQuote q → Text.trim rest = q :: (body ++ [q]) →
    ∀ c ∈ body, Text.isWhitespace c = false ∧ (IsQuote c → c = q)

theorem openQuote_append (s t : Text) : ∀ quote : Option Char,
    openQuote quote (s ++ t) = openQuote (openQuote quote s) t := by
  induction s with
  | nil =>
      intro quote
      rfl
  | cons ch rest ih =>
      intro quote
      rcases quote with - | q
      · rw [List.cons_append, openQuote, openQuote, ih]
      · rw [List.cons_append, openQuote, openQuote, ih]

theorem Intact.parseArgs_eq {rest : Text} (h : Intact rest) :
    parseArgs (unquote (Text.trim rest)) = parseArgs rest := by
  obtain ⟨l, r, hrest, hl, hr⟩ := Text.trim_split rest
  have htrim : tokenizeQuoted rest = tokenizeQuoted (Text.trim rest) := by
    rcases List.eq_nil_or_concat r with rfl | ⟨r, c, rfl⟩
    · conv => lhs; rw [hrest, List.append_nil]
      exact tokenizeFrom_leading hl
    · have hopen := h.ends c (by rw [hrest]; simp) (hr c (by simp))
      conv => lhs; rw [hrest, List.append_assoc]
      rw [tokenizeFrom_leading hl, tokenizeFrom_trailing hopen hr]
  unfold parseArgs
  rw [htrim]
  congr 1
  rcases unquote_cases (Text.trim rest) with ⟨q, body, hq, hraw⟩ | hraw
  · have hbody := h.pair q body hq hraw
    rw [hraw, unquote_pair hq]
    unfold tokenizeQuoted
    rw [tokenizeFrom_word hq hbody none [] (Or.inl rfl),
      tokenizeFrom_word hq _ none [] (Or.inl rfl)]
    · simp
    · intro c hc
      have hself : Text.isWhitespace q = false ∧ (IsQuote q → q = q) := by
        refine ⟨?_, fun _ => rfl⟩
        rcases hq with rfl | rfl
        · decide
        · decide
      rcases List.mem_cons.mp hc with rfl | hc
      · exact hself
      · rcases List.mem_append.mp hc with hc | hc
        · exact hbody c hc
        · rw [List.mem_singleton.mp hc]
          exact hself
  · rw [hraw]

/-! ### What the two readings disagree on -/

theorem kept_blank {t : Text} (ht : ∀ c ∈ t, Text.isWhitespace c = true) :
    kept none t = [] ∧ openQuote none t = none := by
  induction t with
  | nil => exact ⟨rfl, rfl⟩
  | cons c t ih =>
      have hspace := ht c List.mem_cons_self
      have hquote : ¬ (c = '"' ∨ c = '\'') := by
        rintro (rfl | rfl)
        · exact absurd hspace (by decide)
        · exact absurd hspace (by decide)
      rw [kept, openQuote, if_neg hquote, if_neg hquote, if_pos hspace]
      exact ih fun d hd => ht d (List.mem_cons_of_mem _ hd)

theorem kept_quoted {q : Char} {t : Text} (ht : q ∉ t) :
    kept (some q) t = t ∧ openQuote (some q) t = some q := by
  induction t with
  | nil => exact ⟨rfl, rfl⟩
  | cons c t ih =>
      have hne : c ≠ q := by
        rintro rfl
        exact ht List.mem_cons_self
      obtain ⟨hkept, hopen⟩ := ih fun h => ht (List.mem_cons_of_mem _ h)
      rw [kept, openQuote, if_neg hne, if_neg hne, hkept, hopen]
      exact ⟨rfl, rfl⟩

theorem openQuote_isQuote (s : Text) : ∀ quote : Option Char, (∀ q ∈ quote, IsQuote q) →
    ∀ q ∈ openQuote quote s, IsQuote q := by
  induction s with
  | nil =>
      intro quote h
      exact h
  | cons ch rest ih =>
      intro quote h
      rcases quote with - | q
      · rw [openQuote]
        apply ih
        split
        · rename_i hch
          intro q hq
          rw [← Option.some.inj hq]
          exact hch
        · intro q hq
          exact absurd hq (by simp)
      · rw [openQuote]
        apply ih
        split
        · intro q hq
          exact absurd hq (by simp)
        · exact h

/-- What counts for the comparison: white space and quotes. -/
def isMark (c : Char) : Bool := Text.isWhitespace c || c == '"' || c == '\''

theorem isMark_iff (c : Char) :
    isMark c = true ↔ Text.isWhitespace c = true ∨ c = '"' ∨ c = '\'' := by
  unfold isMark
  rw [Bool.or_eq_true, Bool.or_eq_true, beq_iff_eq, beq_iff_eq, or_assoc]

theorem IsQuote.not_space {q : Char} (hq : IsQuote q) : Text.isWhitespace q = false := by
  rcases hq with rfl | rfl
  · decide
  · decide

theorem kept_pair {q : Char} {body : Text} (hq : IsQuote q) (hbody : q ∉ body) :
    kept none (q :: (body ++ [q])) = body ∧ openQuote none (q :: (body ++ [q])) = none := by
  obtain ⟨hkept, hopen⟩ := kept_quoted hbody
  rw [kept, openQuote, if_pos hq, if_pos hq, kept_append, openQuote_append, hkept, hopen,
    kept, openQuote, if_pos rfl, if_pos rfl]
  exact ⟨List.append_nil _, rfl⟩

/-- As many marks are kept of the one reading as of the other. -/
theorem countP_kept_unquote {rest l r : Text} (hrest : rest = l ++ Text.trim rest ++ r)
    (hl : ∀ c ∈ l, Text.isWhitespace c = true)
    (heq : parseArgs (unquote (Text.trim rest)) = parseArgs rest) :
    (kept none (unquote (Text.trim rest))).countP isMark
      = (kept none (Text.trim rest)).countP isMark
        + (kept (openQuote none (Text.trim rest)) r).countP isMark := by
  have h : (parseArgs (unquote (Text.trim rest))).chars.countP isMark
      = (parseArgs rest).chars.countP isMark := by rw [heq]
  rw [countP_parseArgs (by decide) (by decide), countP_parseArgs (by decide) (by decide)] at h
  rw [h]
  conv => lhs; rw [hrest]
  rw [List.append_assoc, kept_append, (kept_blank hl).1, (kept_blank hl).2, List.nil_append,
    kept_append, List.countP_append]

/-- But where the quote of the pair occurs inside it, the condition is exact. -/
theorem Intact.of_parseArgs_eq {rest : Text}
    (hsame : ∀ q body, IsQuote q → Text.trim rest = q :: (body ++ [q]) → q ∉ body)
    (heq : parseArgs (unquote (Text.trim rest)) = parseArgs rest) : Intact rest := by
  obtain ⟨l, r, hrest, hl, hr⟩ := Text.trim_split rest
  have hcount := countP_kept_unquote hrest hl heq
  rcases unquote_cases (Text.trim rest) with ⟨q, body, hq, hraw⟩ | hraw
  · have hmem := hsame q body hq hraw
    have hall : kept none (Text.trim rest) = body ∧ openQuote none (Text.trim rest) = none := by
      rw [hraw]
      exact kept_pair hq hmem
    refine ⟨fun _ _ _ => hall.2, ?_⟩
    intro q' body' hq' hraw' c hc
    obtain ⟨rfl, hbody⟩ := List.cons.inj (hraw'.symm.trans hraw)
    obtain rfl := List.append_cancel_right hbody
    by_contra hlost
    rw [hall.1, hall.2, (kept_blank hr).1, hraw, unquote_pair hq] at hcount
    have hlt := countP_kept_lt (p := isMark) body' ⟨c, hc, ?_⟩ isMark_iff
    · rw [hcount] at hlt
      exact absurd hlt (by simp)
    · by_cases hspace : Text.isWhitespace c = true
      · exact Or.inl hspace
      · refine Or.inr ?_
        by_contra hquote
        exact hlost ⟨Bool.eq_false_iff.mpr hspace, fun h => absurd h hquote⟩
  · refine ⟨?_, ?_⟩
    · intro c hc hspace
      by_contra hopen
      obtain ⟨q, hq⟩ := Option.ne_none_iff_exists'.mp hopen
      have hquote : IsQuote q := openQuote_isQuote _ none (by simp) q hq
      have hmem : q ∉ r := by
        intro h
        have hspace := hr q h
        rw [hquote.not_space] at hspace
        exact absurd hspace (by decide)
      rw [hraw, hq, (kept_quoted hmem).1] at hcount
      have hlen : r.countP isMark = r.length := by
        apply List.countP_eq_length.mpr
        intro d hd
        exact (isMark_iff d).mpr (Or.inl (hr d hd))
      have hr0 : r = [] := List.length_eq_zero_iff.mp (by omega)
      have hne : Text.trim rest ≠ [] := by
        intro h
        rw [h] at hopen
        exact hopen rfl
      rw [hrest, hr0, List.append_nil, List.getLast?_append_of_ne_nil _ hne] at hc
      rw [Text.trim_getLast c hc] at hspace
      exact absurd hspace (by decide)
    · intro q body hq hpair
      exfalso
      rw [hpair, unquote_pair hq] at hraw
      have hlen := congrArg List.length hraw
      simp only [List.length_cons, List.length_append, List.length_nil] at hlen
      omega

end Words

end Amaterasu
