/-
What `parse_args` reads a list of tokens as.

Three loops and a lookahead decide what becomes of a token: the outer one takes the
tokens, the inner one the letters of a cluster, and the last letter may take the next
token away from the outer one.  Here a list of tokens is read as a list of items, each of
which says which tokens it is made of and what it adds to the arguments.  There is one
reading of every list, and `parse_args` returns what its items add up to.
-/
import Amaterasu.Shell.Args

namespace Amaterasu

namespace Words

/-! ### Items -/

/-- What a token is read as. -/
inductive Item
  | operand (tok : Text)
  | endOfFlags
  | cluster (letters : Text)
  | inlineValue (letters : Text) (flag : Char) (value : Text)
  | nextValue (letters : Text) (flag : Char) (value : Text)
  deriving DecidableEq, Repr

namespace Item

/-- The tokens an item is made of. -/
def tokens : Item → List Text
  | operand tok => [tok]
  | endOfFlags => [['-', '-']]
  | cluster letters => ['-' :: letters]
  | inlineValue letters flag value => ['-' :: (letters ++ flag :: value)]
  | nextValue letters flag value => ['-' :: (letters ++ [flag]), value]

/-- The boolean flags among its letters. -/
def flags : Item → List Char
  | cluster letters => letters
  | inlineValue letters _ _ => letters
  | nextValue letters _ _ => letters
  | _ => []

def flagVals : Item → List (Char × Text)
  | inlineValue _ flag value => [(flag, value)]
  | nextValue _ flag value => [(flag, value)]
  | _ => []

def positional : Item → List Text
  | operand tok => [tildeExpand tok]
  | _ => []

/-- Arguments with what an item adds to them. -/
def add (args : ParsedArgs) (item : Item) : ParsedArgs :=
  ⟨args.flags ++ item.flags, args.flagVals ++ item.flagVals, args.positional ++ item.positional⟩

end Item

/-- A text that begins with an ASCII digit. -/
def Numeric (s : Text) : Prop := s.head?.any Char.isDigit = true

instance (s : Text) : Decidable (Numeric s) := inferInstanceAs (Decidable (_ = true))

/-- No letter but the first is a digit, so that no letter has its value behind it. -/
def Plain (letters : Text) : Prop := ∀ c ∈ letters.tail, c.isDigit = false

/-- How the letters behind a dash are read, with the next token, and whether they take it. -/
inductive Cluster : Text → Option Text → Item → Bool → Prop
  | inlineValue {letters value : Text} {flag : Char} {next : Option Text}
      (hplain : Plain (letters ++ [flag])) (hvalue : Numeric value) :
      Cluster (letters ++ flag :: value) next (.inlineValue letters flag value) false
  | nextValue {letters value : Text} {flag : Char}
      (hplain : Plain (letters ++ [flag])) (hvalue : Numeric value) :
      Cluster (letters ++ [flag]) (some value) (.nextValue letters flag value) true
  | flags {letters : Text} {next : Option Text} (hne : letters ≠ []) (hplain : Plain letters)
      (hnext : ∀ tok ∈ next, ¬ Numeric tok) : Cluster letters next (.cluster letters) false

/-- How the first token is read, and what is to be read behind it. -/
inductive Reads : Bool → List Text → Item → Bool → List Text → Prop
  | operand {stop : Bool} {tok : Text} {rest : List Text}
      (h : stop = true ∨ tok.head? ≠ some '-' ∨ tok = ['-']) :
      Reads stop (tok :: rest) (.operand tok) stop rest
  | endOfFlags {rest : List Text} : Reads false (['-', '-'] :: rest) .endOfFlags true rest
  | cluster {letters : Text} {rest : List Text} {item : Item} {used : Bool}
      (hdash : letters ≠ ['-']) (h : Cluster letters rest.head? item used) :
      Reads false (('-' :: letters) :: rest) item false (if used = true then rest.tail else rest)

/-- How a list of tokens is read, from left to right. -/
inductive Reading : Bool → List Text → List Item → Prop
  | done {stop : Bool} : Reading stop [] []
  | next {stop stop' : Bool} {toks rest : List Text} {item : Item} {items : List Item}
      (h : Reads stop toks item stop' rest) (hrest : Reading stop' rest items) :
      Reading stop toks (item :: items)

/-! ### The letters of one token -/

theorem Plain.tail {flag ch : Char} {rest : Text} (h : Plain (flag :: ch :: rest)) :
    ch.isDigit = false ∧ Plain (ch :: rest) :=
  ⟨h ch List.mem_cons_self, fun c hc => h c (List.mem_cons_of_mem _ hc)⟩

/-- Up to a letter, the loop only collects flags. -/
theorem parseFlags_plain (next : Option Text) (ch : Char) (rest : Text) (letters : Text) :
    ∀ args : ParsedArgs, Plain (letters ++ [ch]) →
      parseFlags next (letters ++ ch :: rest) args
        = parseFlags next (ch :: rest) { args with flags := args.flags ++ letters } := by
  induction letters with
  | nil =>
      intro args _
      rw [List.append_nil]
      rfl
  | cons flag letters ih =>
      intro args hplain
      obtain ⟨c, more, hmore⟩ : ∃ c more, letters ++ [ch] = c :: more :=
        List.exists_cons_of_ne_nil (by simp)
      obtain ⟨more', hmore'⟩ : ∃ more', letters ++ ch :: rest = c :: more' := by
        refine ⟨more ++ rest, ?_⟩
        rw [List.append_cons, hmore]
        rfl
      rw [List.cons_append, hmore] at hplain
      obtain ⟨hdigit, hplain⟩ := hplain.tail
      rw [List.cons_append, hmore', parseFlags, if_neg (by simp [hdigit]), ← hmore',
        ih _ (hmore.symm ▸ hplain), List.append_assoc]
      rfl

theorem Cluster.parseFlags_eq {letters : Text} {next : Option Text} {item : Item} {used : Bool}
    (h : Cluster letters next item used) (args : ParsedArgs) :
    parseFlags next letters args = (item.add args, used) := by
  cases h with
  | @inlineValue letters value flag next hplain hvalue =>
      rcases value with - | ⟨digit, value⟩
      · exact absurd hvalue (by simp [Numeric])
      · have hdigit : digit.isDigit = true := by simpa [Numeric] using hvalue
        rw [parseFlags_plain next flag _ letters args hplain, parseFlags, if_pos hdigit]
        simp [Item.add, Item.flags, Item.flagVals, Item.positional]
  | @nextValue letters value flag hplain hvalue =>
      have htok : (value.head?.any Char.isDigit) = true := hvalue
      rw [parseFlags_plain _ flag [] letters args hplain, parseFlags]
      dsimp only
      rw [if_pos htok]
      simp [Item.add, Item.flags, Item.flagVals, Item.positional]
  | flags hne hplain hnext =>
      rcases List.eq_nil_or_concat letters with rfl | ⟨letters, flag, rfl⟩
      · exact absurd rfl hne
      · rw [List.concat_eq_append] at hplain ⊢
        rw [parseFlags_plain _ flag [] letters args hplain]
        rcases next with - | tok
        · simp [parseFlags, Item.add, Item.flags, Item.flagVals, Item.positional]
        · have htok : ¬ (tok.head?.any Char.isDigit) = true := hnext tok rfl
          rw [parseFlags]
          dsimp only
          rw [if_neg htok]
          simp [Item.add, Item.flags, Item.flagVals, Item.positional]

/-- What a cluster adds tells how it was read. -/
theorem Cluster.eq_of_add {letters letters' : Text} {next next' : Option Text} {item item' : Item}
    {used : Bool} (h : Cluster letters next item used) (h' : Cluster letters' next' item' used)
    (hadd : item.add ⟨[], [], []⟩ = item'.add ⟨[], [], []⟩) : item = item' := by
  simp only [Item.add, List.nil_append, ParsedArgs.mk.injEq] at hadd
  obtain ⟨hflags, hvals, -⟩ := hadd
  cases h with
  | inlineValue hplain hvalue =>
      cases h' with
      | inlineValue hplain' hvalue' =>
          simp only [Item.flags, Item.flagVals, List.cons.injEq, Prod.mk.injEq, and_true]
            at hflags hvals
          rw [hflags, hvals.1, hvals.2]
      | flags hne' hplain' hnext' => exact absurd hvals (by simp [Item.flagVals])
  | nextValue hplain hvalue =>
      cases h' with
      | nextValue hplain' hvalue' =>
          simp only [Item.flags, Item.flagVals, List.cons.injEq, Prod.mk.injEq, and_true]
            at hflags hvals
          rw [hflags, hvals.1, hvals.2]
  | flags hne hplain hnext =>
      cases h' with
      | inlineValue hplain' hvalue' => exact absurd hvals (by simp [Item.flagVals])
      | flags hne' hplain' hnext' => exact congrArg Item.cluster hflags

theorem Cluster.ne_nil {letters : Text} {next : Option Text} {item : Item} {used : Bool}
    (h : Cluster letters next item used) : letters ≠ [] := by
  cases h with
  | inlineValue hplain hvalue => simp
  | nextValue hplain hvalue => simp
  | flags hne hplain hnext => exact hne

theorem Cluster.ne_endOfFlags {letters : Text} {next : Option Text} {item : Item} {used : Bool}
    (h : Cluster letters next item used) : item ≠ .endOfFlags := by
  cases h with
  | inlineValue hplain hvalue => simp
  | nextValue hplain hvalue => simp
  | flags hne hplain hnext => simp

/-- The letters of a token are read in one way. -/
theorem Cluster.unique {letters : Text} {next : Option Text} {item item' : Item}
    {used used' : Bool} (h : Cluster letters next item used)
    (h' : Cluster letters next item' used') : item = item' ∧ used = used' := by
  have heq := (h.parseFlags_eq ⟨[], [], []⟩).symm.trans (h'.parseFlags_eq ⟨[], [], []⟩)
  obtain ⟨hadd, rfl⟩ := Prod.mk.inj heq
  exact ⟨h.eq_of_add h' hadd, rfl⟩

theorem plain_cons {flag ch : Char} {rest : Text} (hch : ch.isDigit = false)
    (h : Plain (ch :: rest)) : Plain (flag :: ch :: rest) := by
  intro c hc
  rcases List.mem_cons.mp hc with rfl | hc
  · exact hch
  · exact h c hc

/-- A letter in front of a cluster that does not begin with a value. -/
theorem Cluster.cons (flag : Char) {ch : Char} {rest : Text} {next : Option Text} {item : Item}
    {used : Bool} (h : Cluster (ch :: rest) next item used) (hch : ch.isDigit = false) :
    ∃ item', Cluster (flag :: ch :: rest) next item' used := by
  have hplain : ∀ letters : Text, (∃ more, letters = ch :: more) → Plain letters →
      Plain (flag :: letters) := by
    rintro _ ⟨more, rfl⟩ hletters
    exact plain_cons hch hletters
  generalize hcons : ch :: rest = letters at h
  cases h with
  | @inlineValue letters value flag' next hletters hvalue =>
      have hmore : ∃ more, letters ++ [flag'] = ch :: more := by
        rcases letters with - | ⟨c, letters⟩
        · exact ⟨[], by rw [(List.cons.inj hcons).1]; rfl⟩
        · exact ⟨letters ++ [flag'], by rw [(List.cons.inj hcons).1]; rfl⟩
      exact ⟨_, @Cluster.inlineValue (flag :: letters) value flag' next
        (hplain _ hmore hletters) hvalue⟩
  | @nextValue letters value flag' hletters hvalue =>
      exact ⟨_, @Cluster.nextValue (flag :: letters) value flag'
        (hplain _ ⟨rest, hcons.symm⟩ hletters) hvalue⟩
  | flags hne hletters hnext =>
      exact ⟨_, .flags (List.cons_ne_nil _ _) (hplain _ ⟨rest, hcons.symm⟩ hletters) hnext⟩

theorem exists_cluster (next : Option Text) (letters : Text) (hne : letters ≠ []) :
    ∃ item used, Cluster letters next item used := by
  induction letters with
  | nil => exact absurd rfl hne
  | cons flag letters ih =>
      rcases letters with - | ⟨ch, rest⟩
      · have hplain : Plain ([] ++ [flag]) := fun c hc => absurd hc List.not_mem_nil
        by_cases hnext : ∃ tok ∈ next, Numeric tok
        · obtain ⟨tok, htok, hvalue⟩ := hnext
          rw [Option.mem_def] at htok
          rw [htok]
          exact ⟨.nextValue [] flag tok, true, .nextValue hplain hvalue⟩
        · refine ⟨.cluster [flag], false, .flags hne hplain ?_⟩
          intro tok htok hvalue
          exact hnext ⟨tok, htok, hvalue⟩
      · by_cases hch : ch.isDigit = true
        · have hplain : Plain ([] ++ [flag]) := fun c hc => absurd hc List.not_mem_nil
          have hvalue : Numeric (ch :: rest) := by simpa [Numeric] using hch
          exact ⟨.inlineValue [] flag (ch :: rest), false, .inlineValue hplain hvalue⟩
        · obtain ⟨item, used, h⟩ := ih (List.cons_ne_nil _ _)
          obtain ⟨item', h'⟩ := h.cons flag (Bool.eq_false_iff.mpr hch)
          exact ⟨item', used, h'⟩

/-! ### One token, and all of them -/

/-- The tokens of a cluster: its own, and the one it takes. -/
theorem Cluster.tokens_eq {letters : Text} {rest : List Text} {item : Item} {used : Bool}
    (h : Cluster letters rest.head? item used) :
    item.tokens ++ (if used = true then rest.tail else rest) = ('-' :: letters) :: rest := by
  generalize hnext : rest.head? = next at h
  cases h with
  | inlineValue hplain hvalue => rfl
  | nextValue hplain hvalue =>
      obtain ⟨rest', rfl⟩ := List.head?_eq_some_iff.mp hnext
      rfl
  | flags hne hplain hnext => rfl

/-- Every token is part of the item it is read as. -/
theorem Reads.tokens_eq {stop stop' : Bool} {toks rest : List Text} {item : Item}
    (h : Reads stop toks item stop' rest) : toks = item.tokens ++ rest := by
  cases h with
  | operand h => rfl
  | endOfFlags => rfl
  | cluster hdash h => exact h.tokens_eq.symm

/-- The step of the outer loop. -/
theorem Reads.parseTokens_eq {stop stop' : Bool} {toks rest : List Text} {item : Item}
    (h : Reads stop toks item stop' rest) (args : ParsedArgs) :
    parseTokens stop toks args = parseTokens stop' rest (item.add args) := by
  cases h with
  | operand h =>
      rw [parseTokens, if_pos h]
      simp [Item.add, Item.flags, Item.flagVals, Item.positional]
  | endOfFlags =>
      rw [parseTokens, if_neg (by simp), if_pos rfl]
      simp [Item.add, Item.flags, Item.flagVals, Item.positional]
  | @cluster letters rest item used hdash h =>
      rw [parseTokens, if_neg (by simp [h.ne_nil]), if_neg (by simp [hdash]), List.tail_cons,
        h.parseFlags_eq]
      rcases rest with - | ⟨next, rest⟩
      · dsimp only
        split
        · rfl
        · rfl
      · dsimp only
        split
        · rfl
        · rfl

/-- The first token is read in one way. -/
theorem Reads.unique {stop stop₁ stop₂ : Bool} {toks rest₁ rest₂ : List Text} {item₁ item₂ : Item}
    (h₁ : Reads stop toks item₁ stop₁ rest₁) (h₂ : Reads stop toks item₂ stop₂ rest₂) :
    item₁ = item₂ ∧ stop₁ = stop₂ ∧ rest₁ = rest₂ := by
  have hoperand : ∀ letters : Text, letters ≠ [] →
      ¬ (false = true ∨ ('-' :: letters).head? ≠ some '-' ∨ '-' :: letters = ['-']) := by
    intro letters hne
    simp [hne]
  cases h₁ with
  | operand h =>
      cases h₂ with
      | operand h' => exact ⟨rfl, rfl, rfl⟩
      | endOfFlags => exact absurd h (hoperand _ (by simp))
      | cluster hdash h' => exact absurd h (hoperand _ h'.ne_nil)
  | endOfFlags =>
      cases h₂ with
      | operand h' => exact absurd h' (hoperand _ (by simp))
      | endOfFlags => exact ⟨rfl, rfl, rfl⟩
      | cluster hdash h' => exact absurd rfl hdash
  | cluster hdash h =>
      cases h₂ with
      | operand h' => exact absurd h' (hoperand _ h.ne_nil)
      | endOfFlags => exact absurd rfl hdash
      | cluster hdash' h' =>
          obtain ⟨rfl, rfl⟩ := h.unique h'
          exact ⟨rfl, rfl, rfl⟩

/-- Some rule reads the first token, and takes at least that one away. -/
theorem exists_reads (stop : Bool) (tok : Text) (rest : List Text) :
    ∃ item stop' rest', Reads stop (tok :: rest) item stop' rest' ∧ rest'.length ≤ rest.length := by
  by_cases hoperand : stop = true ∨ tok.head? ≠ some '-' ∨ tok = ['-']
  · exact ⟨.operand tok, stop, rest, .operand hoperand, Nat.le_refl _⟩
  · rw [not_or, not_or, not_not] at hoperand
    obtain ⟨hstop, hhead, hne⟩ := hoperand
    obtain rfl := Bool.eq_false_iff.mpr hstop
    obtain ⟨letters, rfl⟩ := List.head?_eq_some_iff.mp hhead
    by_cases hdash : letters = ['-']
    · rw [hdash]
      exact ⟨.endOfFlags, true, rest, .endOfFlags, Nat.le_refl _⟩
    · obtain ⟨item, used, h⟩ := exists_cluster rest.head? letters (by rintro rfl; exact hne rfl)
      refine ⟨item, false, _, .cluster hdash h, ?_⟩
      split
      · rw [List.length_tail]
        exact Nat.sub_le _ _
      · exact Nat.le_refl _

/-- Every list of tokens is read. -/
theorem exists_reading (n : Nat) : ∀ (stop : Bool) (toks : List Text), toks.length ≤ n →
    ∃ items, Reading stop toks items := by
  induction n with
  | zero =>
      intro stop toks hlen
      obtain rfl := List.length_eq_zero_iff.mp (Nat.le_zero.mp hlen)
      exact ⟨[], .done⟩
  | succ n ih =>
      intro stop toks hlen
      rcases toks with - | ⟨tok, rest⟩
      · exact ⟨[], .done⟩
      · obtain ⟨item, stop', rest', h, hle⟩ := exists_reads stop tok rest
        obtain ⟨items, hitems⟩ := ih stop' rest' (by rw [List.length_cons] at hlen; omega)
        exact ⟨item :: items, .next h hitems⟩

theorem Reading.unique {stop : Bool} {toks : List Text} {items : List Item}
    (h : Reading stop toks items) : ∀ items', Reading stop toks items' → items' = items := by
  induction h with
  | done =>
      intro items' h'
      cases h' with
      | done => rfl
      | next h' => cases h'
  | next h hrest ih =>
      intro items' h'
      cases h' with
      | done => cases h
      | next h' hrest' =>
          obtain ⟨rfl, rfl, rfl⟩ := h.unique h'
          rw [ih _ hrest']

/-- Every token is part of one item. -/
theorem Reading.tokens_eq {stop : Bool} {toks : List Text} {items : List Item}
    (h : Reading stop toks items) : items.flatMap Item.tokens = toks := by
  induction h with
  | done => rfl
  | next h hrest ih => rw [List.flatMap_cons, ih, h.tokens_eq]

/-- Behind a `--` there is no other. -/
theorem Reading.count_endOfFlags {stop : Bool} {toks : List Text} {items : List Item}
    (h : Reading stop toks items) :
    items.count .endOfFlags ≤ if stop = true then 0 else 1 := by
  induction h with
  | done => simp
  | next h hrest ih =>
      cases h with
      | operand h => simpa using ih
      | endOfFlags => simpa using ih
      | cluster hdash h =>
          rw [List.count_cons_of_ne h.ne_endOfFlags]
          exact ih

/-- The loop adds up the items. -/
theorem Reading.parseTokens_eq {stop : Bool} {toks : List Text} {items : List Item}
    (h : Reading stop toks items) : ∀ args : ParsedArgs,
      parseTokens stop toks args = items.foldl Item.add args := by
  induction h with
  | done =>
      intro args
      rfl
  | next h hrest ih =>
      intro args
      rw [h.parseTokens_eq, ih, List.foldl_cons]

theorem foldl_add (items : List Item) : ∀ args : ParsedArgs,
    items.foldl Item.add args = ⟨args.flags ++ items.flatMap Item.flags,
      args.flagVals ++ items.flatMap Item.flagVals,
      args.positional ++ items.flatMap Item.positional⟩ := by
  induction items with
  | nil =>
      intro args
      simp
  | cons item items ih =>
      intro args
      rw [List.foldl_cons, ih]
      simp [Item.add]

/-- `parse_args` returns what the tokens of its input are read as. -/
theorem parseArgs_reading (input : Text) :
    ∃ items, Reading false (tokenizeQuoted input) items ∧
      (∀ items', Reading false (tokenizeQuoted input) items' → items' = items) ∧
      parseArgs input = ⟨items.flatMap Item.flags, items.flatMap Item.flagVals,
        items.flatMap Item.positional⟩ ∧
      items.flatMap Item.tokens = tokenizeQuoted input ∧ items.count .endOfFlags ≤ 1 := by
  obtain ⟨items, h⟩ := exists_reading _ false (tokenizeQuoted input) (Nat.le_refl _)
  refine ⟨items, h, h.unique, ?_, h.tokens_eq, h.count_endOfFlags⟩
  unfold parseArgs
  rw [h.parseTokens_eq, foldl_add]
  simp

end Words

end Amaterasu
