/-
Variables in a command line.

`env::expand` is a scanner with one character of lookahead.  What it scans is a text
made of pieces: literal text, `$NAME`, `${KEY}`, and a dollar sign that begins neither.
A list of pieces that the scanner can tell apart is expanded piece by piece, so what a
variable holds is never looked at again; and there is such a list for every text, but
for a brace that is never closed, which the end of the text closes.
-/
import Amaterasu.Shell.Words

namespace Amaterasu

namespace Words

variable {g : Globals}

/-! ### One piece at a time -/

theorem expand_nil : expand g [] = [] := by rw [expand]

theorem expand_cons {c : Char} (hc : c ≠ '$') (rest : Text) :
    expand g (c :: rest) = c :: expand g rest := by
  rw [expand.eq_def]
  exact if_pos hc

/-- Text in front of everything else is left as it is. -/
theorem expand_append {t : Text} (ht : '$' ∉ t) (rest : Text) :
    expand g (t ++ rest) = t ++ expand g rest := by
  induction t with
  | nil => rfl
  | cons c t ih =>
      rw [List.mem_cons, not_or] at ht
      rw [List.cons_append, expand_cons (Ne.symm ht.1), ih ht.2]
      rfl

/-- A key ends at the first brace, or where the text does. -/
theorem expand_brace (rest : Text) :
    expand g ('$' :: '{' :: rest) = (g.getEnv (rest.takeWhile (· != '}'))).getD []
      ++ expand g ((rest.dropWhile (· != '}')).drop 1) := by
  rw [expand.eq_def]
  exact (if_neg (by decide)).trans (if_pos rfl)

theorem isKeyChar_ne_brace {c : Char} (hc : isKeyChar c = true) : c ≠ '{' := by
  rintro rfl
  exact absurd hc (by decide)

/-- A name ends at the first character that is none of a name. -/
theorem expand_key {c : Char} (hc : isKeyChar c = true) (rest : Text) :
    expand g ('$' :: c :: rest) = (g.getEnv (c :: rest.takeWhile isKeyChar)).getD []
      ++ expand g (rest.dropWhile isKeyChar) := by
  rw [expand.eq_def]
  exact (if_neg (by decide)).trans ((if_neg (isKeyChar_ne_brace hc)).trans (if_pos hc))

/-- A dollar sign that begins no variable. -/
theorem expand_dollar {rest : Text} (h : ∀ c ∈ rest.head?, c ≠ '{' ∧ isKeyChar c = false) :
    expand g ('$' :: rest) = '$' :: expand g rest := by
  rw [expand.eq_def]
  refine (if_neg (by decide)).trans ?_
  cases rest with
  | nil => rw [expand_nil]
  | cons c rest =>
      obtain ⟨hbrace, hkey⟩ := h c rfl
      exact (if_neg hbrace).trans (if_neg (by rw [hkey]; decide))

/-! ### Pieces -/

/-- A part of a command line. -/
inductive Piece
  | plain (t : Text) (no_dollar : '$' ∉ t)
  | name (t : Text) (ne_nil : t ≠ []) (keys : ∀ c ∈ t, isKeyChar c = true)
  | braced (key : Text) (no_brace : '}' ∉ key)
  | dollar

namespace Piece

def render : Piece → Text
  | plain t _ => t
  | name t _ _ => '$' :: t
  | braced key _ => '$' :: '{' :: key ++ ['}']
  | dollar => ['$']

/-- What a piece stands for: an unset variable stands for nothing. -/
def value (g : Globals) : Piece → Text
  | plain t _ => t
  | name t _ _ => (g.getEnv t).getD []
  | braced key _ => (g.getEnv key).getD []
  | dollar => ['$']

/-- What follows a piece does not go on with it. -/
def EndsAt : Piece → Text → Prop
  | name _ _ _, rest => ∀ c ∈ rest.head?, isKeyChar c = false
  | dollar, rest => ∀ c ∈ rest.head?, c ≠ '{' ∧ isKeyChar c = false
  | _, _ => True

end Piece

def render (pieces : List Piece) : Text := pieces.flatMap Piece.render

def value (g : Globals) (pieces : List Piece) : Text := pieces.flatMap (Piece.value g)

/-- Each piece ends where the next one begins. -/
def Apart : List Piece → Prop
  | [] => True
  | piece :: pieces => piece.EndsAt (render pieces) ∧ Apart pieces

@[simp] theorem render_nil : render [] = [] := rfl

@[simp] theorem render_cons (piece : Piece) (pieces : List Piece) :
    render (piece :: pieces) = piece.render ++ render pieces := rfl

@[simp] theorem value_cons (piece : Piece) (pieces : List Piece) :
    value g (piece :: pieces) = piece.value g ++ value g pieces := rfl

/-- The scanner reads one piece and goes on behind it. -/
theorem expand_piece (piece : Piece) {rest : Text} (h : piece.EndsAt rest) :
    expand g (piece.render ++ rest) = piece.value g ++ expand g rest := by
  cases piece with
  | plain t no_dollar => exact expand_append no_dollar rest
  | name t ne_nil keys =>
      obtain ⟨c, t, rfl⟩ := List.exists_cons_of_ne_nil ne_nil
      obtain ⟨htake, hdrop⟩ := Text.takeWhile_run (fun d hd => keys d (List.mem_cons_of_mem c hd)) h
      show expand g ('$' :: c :: (t ++ rest)) = _
      rw [expand_key (keys c List.mem_cons_self), htake, hdrop]
      rfl
  | braced key no_brace =>
      have hkey : ∀ c ∈ key, (c != '}') = true := by
        intro c hc
        rw [bne_iff_ne]
        rintro rfl
        exact no_brace hc
      have hbrace : ∀ c ∈ ('}' :: rest).head?, (c != '}') = false := by
        intro c hc
        obtain rfl := Option.some.inj hc
        decide
      obtain ⟨htake, hdrop⟩ := Text.takeWhile_run hkey hbrace
      have happ : (Piece.braced key no_brace).render ++ rest
          = '$' :: '{' :: (key ++ '}' :: rest) := by
        simp [Piece.render]
      rw [happ, expand_brace, htake, hdrop]
      rfl
  | dollar => exact expand_dollar h

/--
**Expansion undoes rendering.**  A text made of pieces that are told apart expands to
their values, each variable to what it is set to, and no value is scanned again.
-/
theorem expand_render (g : Globals) (pieces : List Piece) (h : Apart pieces) :
    expand g (render pieces) = value g pieces := by
  induction pieces with
  | nil => exact expand_nil
  | cons piece pieces ih =>
      rw [render_cons, expand_piece piece h.1, ih h.2, value_cons]

/-- `a$X-${Y}$` with `X` set to a text that looks like a variable, and `Y` unset. -/
theorem expand_render_mixed :
    expand ⟨[], [], [(['X'], ['$', 'Y'])], none⟩ ['a', '$', 'X', '-', '$', '{', 'Y', '}', '$']
      = ['a', '$', 'Y', '-', '$'] :=
  expand_render ⟨[], [], [(['X'], ['$', 'Y'])], none⟩
    [.plain ['a'] (by decide), .name ['X'] (by decide) (by simp [isKeyChar]),
      .plain ['-'] (by decide), .braced ['Y'] (by decide), .dollar]
    (by simp [Apart, Piece.EndsAt, Piece.render, isKeyChar])

/-! ### Every text is made of pieces -/

/-- A text, or a text that ends inside a brace, with the brace closed. -/
def Closes (s t : Text) : Prop := t = s ∨ (s ≠ [] ∧ t = s ++ ['}'])

theorem Closes.append {s t : Text} (h : Closes s t) (front : Text) :
    Closes (front ++ s) (front ++ t) := by
  rcases h with rfl | ⟨hne, rfl⟩
  · exact Or.inl rfl
  · refine Or.inr ⟨?_, (List.append_assoc _ _ _).symm⟩
    exact List.append_ne_nil_of_right_ne_nil front hne

/-- What begins a text begins it when it is closed. -/
theorem Closes.head? {s t : Text} (h : Closes s t) : t.head? = s.head? := by
  rcases h with rfl | ⟨hne, rfl⟩
  · rfl
  · rw [List.head?_append_of_ne_nil _ hne]

/-- A piece in front of a rest, and it ends there also when the rest is closed. -/
structure Begins (piece : Piece) (rest s : Text) : Prop where
  split : s = piece.render ++ rest
  ne_nil : piece.render ≠ []
  ends : ∀ t, Closes rest t → piece.EndsAt t

theorem Begins.endsAt {piece : Piece} {rest s : Text} (h : Begins piece rest s) :
    piece.EndsAt rest := h.ends rest (Or.inl rfl)

theorem begins_plain {c : Char} (hc : c ≠ '$') (rest : Text) :
    ∃ piece rest', Begins piece rest' (c :: rest) :=
  ⟨.plain [c] (fun hmem => hc (List.mem_singleton.mp hmem).symm), rest, rfl,
    List.cons_ne_nil c [], fun _ _ => trivial⟩

theorem begins_dollar {rest : Text} (h : ∀ c ∈ rest.head?, c ≠ '{' ∧ isKeyChar c = false) :
    ∃ piece rest', Begins piece rest' ('$' :: rest) := by
  refine ⟨.dollar, rest, rfl, List.cons_ne_nil '$' [], ?_⟩
  intro t ht
  show ∀ c ∈ t.head?, _
  rw [ht.head?]
  exact h

theorem begins_name {c : Char} (hc : isKeyChar c = true) (rest : Text) :
    ∃ piece rest', Begins piece rest' ('$' :: c :: rest) := by
  have hkeys : ∀ d ∈ c :: rest.takeWhile isKeyChar, isKeyChar d = true := by
    intro d hd
    rcases List.mem_cons.mp hd with rfl | hd
    · exact hc
    · exact List.mem_takeWhile_imp hd
  refine ⟨.name _ (List.cons_ne_nil c _) hkeys, rest.dropWhile isKeyChar, ?_,
    List.cons_ne_nil '$' _, ?_⟩
  · simp [Piece.render]
  · intro t ht
    show ∀ c ∈ t.head?, _
    rw [ht.head?]
    exact Text.dropWhile_head? (p := isKeyChar) rest

theorem begins_braced {rest : Text} (h : '}' ∈ rest) :
    ∃ piece rest', Begins piece rest' ('$' :: '{' :: rest) := by
  have hkey : '}' ∉ rest.takeWhile (· != '}') := by
    intro hmem
    exact absurd (List.mem_takeWhile_imp hmem) (by decide)
  have hsplit := List.takeWhile_append_dropWhile (p := (· != '}')) (l := rest)
  rcases hdrop : rest.dropWhile (· != '}') with - | ⟨d, after⟩
  · rw [hdrop, List.append_nil] at hsplit
    rw [hsplit] at hkey
    exact absurd h hkey
  · have hd : d = '}' := by
      have hhead := Text.dropWhile_head? (p := (· != '}')) rest d (by rw [hdrop]; rfl)
      simpa using hhead
    rw [hdrop, hd] at hsplit
    refine ⟨.braced _ hkey, after, ?_, List.cons_ne_nil '$' _, fun _ _ => trivial⟩
    conv_lhs => rw [← hsplit]
    simp [Piece.render]

/-- A text begins with a piece, or is a brace left open. -/
theorem exists_piece (c : Char) (rest : Text) : (∃ piece rest', Begins piece rest' (c :: rest)) ∨
    ∃ key, '}' ∉ key ∧ c :: rest = '$' :: '{' :: key := by
  by_cases hc : c = '$'
  swap
  · exact Or.inl (begins_plain hc rest)
  subst hc
  by_cases hdollar : ∀ c ∈ rest.head?, c ≠ '{' ∧ isKeyChar c = false
  · exact Or.inl (begins_dollar hdollar)
  rcases rest with - | ⟨c, rest⟩
  · exact absurd (fun c hc => absurd hc (by simp)) hdollar
  by_cases hbrace : c = '{'
  · subst hbrace
    by_cases hclosed : '}' ∈ rest
    · exact Or.inl (begins_braced hclosed)
    · exact Or.inr ⟨rest, hclosed, rfl⟩
  · have hkey : isKeyChar c = true := by
      by_contra hne
      apply hdollar
      intro d hd
      obtain rfl := Option.some.inj hd
      exact ⟨hbrace, Bool.not_eq_true _ ▸ hne⟩
    exact Or.inl (begins_name hkey rest)

/-- A brace left open is taken as closed where the text ends. -/
theorem expand_open {key : Text} (h : '}' ∉ key) :
    expand g ('$' :: '{' :: key) = (Piece.braced key h).value g := by
  have hkey : ∀ c ∈ key, (c != '}') = true := by
    intro c hc
    rw [bne_iff_ne]
    rintro rfl
    exact h hc
  have hend : ∀ c ∈ ([] : Text).head?, (c != '}') = false := by simp
  obtain ⟨htake, hdrop⟩ := Text.takeWhile_run hkey hend
  rw [List.append_nil] at htake hdrop
  rw [expand_brace, htake, hdrop, List.drop_nil, expand_nil, List.append_nil]
  rfl

/-- Every text is made of pieces that are told apart, but for a brace left open at its
end, which the scanner takes as closed there. -/
theorem exists_pieces (s : Text) :
    ∃ pieces, Apart pieces ∧ Closes s (render pieces) ∧ ∀ g, expand g s = value g pieces := by
  induction hn : s.length using Nat.strong_induction_on generalizing s with
  | _ n ih =>
      rcases s with - | ⟨c, rest⟩
      · exact ⟨[], trivial, Or.inl rfl, fun g => expand_nil⟩
      rcases exists_piece c rest with ⟨piece, rest', hbegins⟩ | ⟨key, hopen, heq⟩
      · have hlen := congrArg List.length hbegins.split
        have hpos := List.length_pos_iff.mpr hbegins.ne_nil
        rw [List.length_append] at hlen
        obtain ⟨pieces, hapart, hrender, hvalue⟩ := ih rest'.length (by omega) rest' rfl
        refine ⟨piece :: pieces, ⟨hbegins.ends _ hrender, hapart⟩, ?_, ?_⟩
        · rw [hbegins.split]
          exact hrender.append _
        · intro g
          rw [hbegins.split, expand_piece piece hbegins.endsAt, hvalue g, value_cons]
      · rw [heq]
        refine ⟨[.braced key hopen], ⟨trivial, trivial⟩, Or.inr ⟨List.cons_ne_nil '$' _, ?_⟩, ?_⟩
        · simp [Piece.render]
        · exact fun g => (expand_open hopen).trans (List.append_nil _).symm

end Words

end Amaterasu
