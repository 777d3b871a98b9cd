/-
A command line of plain words.

Words without white space, quotes, separators and dollar signs, with a space between
them, are one command: nothing is expanded, and `tokenize_quoted` gives the words back.
-/
import Amaterasu.Shell.Files

namespace Amaterasu

namespace Words

/-- A word the command line gives no meaning to, but for a dash or a tilde in front. -/
structure Word (t : Text) : Prop where
  ne_nil : t ≠ []
  chars : ∀ c ∈ t, Text.isWhitespace c = false ∧ c ≠ '"' ∧ c ≠ '\'' ∧ c ≠ ';' ∧ c ≠ '&' ∧ c ≠ '$'

/-- Words with a space between them. -/
def unwords (words : List Text) : Text := List.intercalate [' '] words

theorem unwords_singleton (w : Text) : unwords [w] = w := by simp [unwords]

theorem unwords_cons {w : Text} {words : List Text} (hne : words ≠ []) :
    unwords (w :: words) = w ++ ' ' :: unwords words := by
  obtain ⟨v, words, rfl⟩ := List.exists_cons_of_ne_nil hne
  simp [unwords, List.intercalate]

section

variable {words : List Text}

theorem unwords_chars (h : ∀ w ∈ words, Word w) : ∀ c ∈ unwords words,
    c ≠ '"' ∧ c ≠ '\'' ∧ c ≠ ';' ∧ c ≠ '&' ∧ c ≠ '$' := by
  induction words with
  | nil =>
      intro c hc
      exact absurd hc (by simp [unwords, List.intercalate])
  | cons w words ih =>
      have hw : ∀ c ∈ w, c ≠ '"' ∧ c ≠ '\'' ∧ c ≠ ';' ∧ c ≠ '&' ∧ c ≠ '$' :=
        fun c hc => ((h w List.mem_cons_self).chars c hc).2
      intro c hc
      rcases eq_or_ne words [] with rfl | hne
      · rw [unwords_singleton] at hc
        exact hw c hc
      · rw [unwords_cons hne] at hc
        rcases List.mem_append.mp hc with hc | hc
        · exact hw c hc
        · rcases List.mem_cons.mp hc with rfl | hc
          · decide
          · exact ih (fun v hv => h v (List.mem_cons_of_mem _ hv)) c hc

theorem unwords_ne_nil (hne : words ≠ []) (h : ∀ w ∈ words, Word w) : unwords words ≠ [] := by
  obtain ⟨w, words, rfl⟩ := List.exists_cons_of_ne_nil hne
  have hw := (h w List.mem_cons_self).ne_nil
  rcases eq_or_ne words [] with rfl | hne'
  · rw [unwords_singleton]
    exact hw
  · rw [unwords_cons hne']
    exact List.append_ne_nil_of_left_ne_nil hw _

theorem unwords_head? {w : Text} (hw : Word w) : (unwords (w :: words)).head? = w.head? := by
  rcases eq_or_ne words [] with rfl | hne
  · rw [unwords_singleton]
  · rw [unwords_cons hne, List.head?_append_of_ne_nil _ hw.ne_nil]

theorem unwords_getLast? (h : ∀ w ∈ words, Word w) :
    ∀ c ∈ (unwords words).getLast?, Text.isWhitespace c = false := by
  induction words with
  | nil =>
      intro c hc
      exact absurd hc (by simp [unwords, List.intercalate])
  | cons w words ih =>
      have htail : ∀ v ∈ words, Word v := fun v hv => h v (List.mem_cons_of_mem _ hv)
      intro c hc
      rcases eq_or_ne words [] with rfl | hne
      · rw [unwords_singleton] at hc
        exact ((h w List.mem_cons_self).chars c (List.mem_of_getLast? hc)).1
      · rw [unwords_cons hne, List.append_cons,
          List.getLast?_append_of_ne_nil _ (unwords_ne_nil hne htail)] at hc
        exact ih htail c hc

theorem trim_unwords (hne : words ≠ []) (h : ∀ w ∈ words, Word w) :
    Text.trim (unwords words) = unwords words := by
  apply Text.trim_eq_self (unwords_ne_nil hne h) _ (unwords_getLast? h)
  obtain ⟨w, words, rfl⟩ := List.exists_cons_of_ne_nil hne
  have hw := h w List.mem_cons_self
  rw [unwords_head? hw]
  intro c hc
  exact (hw.chars c (List.mem_of_head? hc)).1

/-- No quotes to strip. -/
theorem unquote_unwords (h : ∀ w ∈ words, Word w) : unquote (unwords words) = unwords words := by
  unfold unquote
  rw [if_neg]
  rintro ⟨-, ⟨hq, -⟩ | ⟨hq, -⟩⟩
  · exact (unwords_chars h _ (List.mem_of_head? hq)).1 rfl
  · exact (unwords_chars h _ (List.mem_of_head? hq)).2.1 rfl

theorem tokenizeQuoted_unwords (h : ∀ w ∈ words, Word w) :
    tokenizeQuoted (unwords words) = words := by
  induction words with
  | nil => rfl
  | cons w words ih =>
      have hw := h w List.mem_cons_self
      have hone : tokenizeQuoted w = [w] := by
        unfold tokenizeQuoted
        rw [tokenizeFrom_word (q := '"') (Or.inl rfl) _ none [] (Or.inl rfl), List.nil_append,
          List.filter_eq_self.mpr, lastToken, if_neg hw.ne_nil]
        · intro c hc
          simpa using (hw.chars c hc).2.1
        · intro c hc
          obtain ⟨hspace, hdouble, hsingle, -⟩ := hw.chars c hc
          exact ⟨hspace, fun hq => hq.resolve_right hsingle⟩
      rcases eq_or_ne words [] with rfl | hne
      · rw [unwords_singleton, hone]
      · have hopen : openQuote none w = none := by
          have hplain : ∀ s : Text, (∀ c ∈ s, ¬ IsQuote c) → openQuote none s = none := by
            intro s
            induction s with
            | nil => exact fun _ => rfl
            | cons c s ih =>
                intro hs
                rw [openQuote, if_neg (hs c List.mem_cons_self)]
                exact ih fun d hd => hs d (List.mem_cons_of_mem _ hd)
          apply hplain
          intro c hc
          obtain ⟨-, hdouble, hsingle, -⟩ := hw.chars c hc
          rintro (hq | hq)
          · exact hdouble hq
          · exact hsingle hq
        have hrest := ih fun v hv => h v (List.mem_cons_of_mem _ hv)
        unfold tokenizeQuoted at hone hrest ⊢
        rw [unwords_cons hne, tokenizeFrom_space (by decide) w _ none [] hopen, hone, hrest]
        rfl

variable {name : Text}

/-- The first word of a line, and the rest. -/
theorem takeWhile_unwords (hname : Word name) (hne : words ≠ []) :
    (unwords (name :: words)).takeWhile (fun c => !Text.isWhitespace c) = name ∧
      (unwords (name :: words)).dropWhile (fun c => !Text.isWhitespace c)
        = ' ' :: unwords words := by
  have hall : ∀ c ∈ name, (!Text.isWhitespace c) = true := by
    intro c hc
    rw [(hname.chars c hc).1]
    rfl
  rw [unwords_cons hne]
  refine ⟨?_, ?_⟩
  · rw [List.takeWhile_append_of_pos hall, List.takeWhile_cons_of_neg (by decide), List.append_nil]
  · rw [List.dropWhile_append_of_pos hall, List.dropWhile_cons_of_neg (by decide)]

theorem cmdArg_unwords (hname : Word name) (hne : words ≠ []) (h : ∀ w ∈ words, Word w) :
    cmdArg (unwords (name :: words)) = some (tildeExpand (unwords words)) := by
  unfold cmdArg
  rw [(takeWhile_unwords hname hne).2]
  show (if Text.trim (unwords words) = [] then none
    else some (tildeExpand (unquote (Text.trim (unwords words))))) = _
  rw [trim_unwords hne h, if_neg (unwords_ne_nil hne h), unquote_unwords h]

/-- A line of words runs the command that the first one names. -/
theorem dispatchLine_unwords (hname : Word name) (hne : words ≠ []) (h : ∀ w ∈ words, Word w)
    {commands : List Cmd} {entry : Cmd}
    (hentry : commands.find? (fun e => name == e.name) = some entry) (s : Shell) (g : Globals) :
    Session.dispatchLine commands s g (unwords (name :: words))
      = entry.run s g (some (tildeExpand (unwords words))) := by
  have hall : ∀ w ∈ name :: words, Word w := List.forall_mem_cons.mpr ⟨hname, h⟩
  have hsplit : splitCommands (unwords (name :: words)) = [unwords (name :: words)] := by
    apply splitCommands_plain
    intro c hc
    obtain ⟨h₁, h₂, h₃, h₄, -⟩ := unwords_chars hall c hc
    exact ⟨h₁, h₂, h₃, h₄⟩
  have hexpand : expand g (unwords (name :: words)) = unwords (name :: words) := by
    apply expand_plain
    intro hmem
    exact (unwords_chars hall _ hmem).2.2.2.2 rfl
  have htrim := trim_unwords (List.cons_ne_nil name words) hall
  have hline := unwords_ne_nil (List.cons_ne_nil name words) hall
  have hfind : (commands.find? fun e => nameEq (unwords (name :: words)) e.name) = some entry := by
    unfold nameEq
    rw [(takeWhile_unwords hname hne).1]
    exact hentry
  have hone : Session.dispatchOne commands s g (unwords (name :: words))
      = entry.run s g (some (tildeExpand (unwords words))) := by
    unfold Session.dispatchOne
    simp only [htrim, hexpand, hline, hfind, cmdArg_unwords hname hne h, if_false]
  unfold Session.dispatchLine
  rw [hsplit, List.foldl_cons, List.foldl_nil, htrim, if_neg hline, hone]
  rfl

/-- What a handler parses of a line of words. -/
theorem parseArgs_unwords (h : ∀ w ∈ words, Word w) :
    parseArgs (tildeExpand (unwords words)) = parseTokens false words ⟨[], [], []⟩ := by
  rw [parseArgs_tildeExpand]
  unfold parseArgs
  rw [tokenizeQuoted_unwords h]

end

end Words

end Amaterasu
