import LetTyping.Proofs.Scanning
import Mathlib.Algebra.Group.Nat.Defs

/-!
# Nothing is lost in scanning

The lexemes of a text account for all of it.  Every lexeme stands at its span and is spelled as it
is written there; every byte between two lexemes belongs to a blank or to a comment that is
complete.  The kinds of faults differ in where they leave the rest of the text: behind one
character, behind a run of digits, or, for a comment without an end, at the end of the text.

What is cut off a text is looked at once, piece by piece (`cut_fits`).  The rest is about positions:
the pieces follow each other without gaps, so the spans of the lexemes are in order, and what they
leave out are the other pieces.

## Main definitions

* `IsLineComment`, `IsBlockComment`, `Skippable` — what may stand between lexemes.
* `IsDigitRun` — digits and underscores up to where they end.
* `Token.Spelled`, `LexCause.Explains` — the text of a token, and the text of a fault.
* `Stands` — a text stands in a source at a span.
* `Accounts` — lexemes account for a text that follows another one.

## Main results

* `splitComment_some`, `splitComment_none` — a comment ends where it can first be closed.
* `cut_fits` — the first piece of a text is what it is taken for.
* `Accounts.skip`, `Accounts.cons` — one piece before a text that is accounted for.
* `Scanner.read_eq` — behind the last lexeme there is the last lexeme again.
* `firstLexemes_account` — **the lexemes of a text account for all of it.**
-/

namespace LetTyping

variable [Alphabet]

/-! ### What stands in a text -/

/-- The text is a comment that ends with its line. -/
def IsLineComment (text rest : List Char) : Prop :=
  ∃ body, text = '/' :: '/' :: body ∧ '\n' ∉ body ∧ ∀ c ∈ rest.head?, c = '\n'

/-- The text is a comment between its two marks, closed where it can first be closed. -/
def IsBlockComment (text : List Char) : Prop :=
  ∃ body, text = '/' :: '*' :: (body ++ ['*', '/']) ∧ ¬['*', '/'] <:+: body ++ ['*']

/-- The text is a blank character or a complete comment. -/
def Skippable (text rest : List Char) : Prop :=
  (∃ c, text = [c] ∧ isBlank c = true) ∨ IsLineComment text rest ∨ IsBlockComment text

/-- The text is a digit with digits and underscores behind it, and more of them do not follow. -/
def IsDigitRun (text rest : List Char) : Prop :=
  (∃ c w, text = c :: w ∧ c.isDigit = true ∧ ∀ d ∈ w, goesOnNumber d = true) ∧
    ∀ d ∈ rest.head?, goesOnNumber d = false

/-- The number that a run of digits and underscores stands for. -/
def runValue (text : List Char) : Nat := Decimal.value (text.filter (· ≠ '_'))

/-- The text is what the token is read from, up to where the token ends.  The underscores of an
integer count for nothing; all other tokens are written as they are. -/
def Token.Spelled : Token → List Char → List Char → Prop
  | int n, text, rest => IsDigitRun text rest ∧ n = runValue text ∧ runValue text ≤ 2 ^ 63 - 1
  | eof, _, _ => False
  | t, text, rest => t.text.toList = text ∧ t.isScanned = true ∧
      ∀ c ∈ text.head?, startsWord c = true → Separated rest

/-- No token and no comment starts with the character before the rest of a text. -/
def StartsNothing (c : Char) (rest : List Char) : Prop :=
  isBlank c = false ∧ Token.ofMark? c = none ∧ c.isDigit = false ∧ startsWord c = false ∧
    (c = '/' → rest.head? ≠ some '/' ∧ rest.head? ≠ some '*')

/-- The text is what is wrong. -/
def LexCause.Explains : LexCause → List Char → List Char → Prop
  | unexpected c, text, rest => text = [c] ∧ StartsNothing c rest
  | openComment, text, rest =>
    rest = [] ∧ ∃ body, text = '/' :: '*' :: body ∧ ¬['*', '/'] <:+: body
  | largeNumber, text, rest => IsDigitRun text rest ∧ 2 ^ 63 - 1 < runValue text

/-- The text is what the lexeme was read from. -/
def Lexeme.ReadFrom (l : Lexeme) (text rest : List Char) : Prop :=
  match l.val with
  | .ok t => t.Spelled text rest
  | .error cause => cause.Explains text rest

/-! ### Pieces -/

/-- The text of the piece has the role that it is given. -/
def Piece.Fits (p : Piece) (rest : List Char) : Prop :=
  match p.role with
  | .blank | .comment => Skippable p.text rest
  | .token t => t.Spelled p.text rest
  | .fault cause => cause.Explains p.text rest

omit [Alphabet] in
/-- A stretch of characters is taken up to where the next character ends it, or the text does. -/
theorem stretch (p : Char → Bool) (cs : List Char) :
    (∀ c ∈ cs.takeWhile p, p c = true) ∧ ∀ c ∈ (cs.dropWhile p).head?, p c = false := by
  refine ⟨fun c hc => List.all_eq_true.mp List.all_takeWhile c hc, fun c hc => ?_⟩
  have hnot := List.head?_dropWhile_not p cs
  rw [Option.mem_def.mp hc] at hnot
  exact hnot

omit [Alphabet] in
/-- A comment that can be closed is closed where that is first possible. -/
theorem splitComment_some {cs inner rest : List Char} (h : splitComment cs = some (inner, rest)) :
    ∃ body, inner = body ++ ['*', '/'] ∧ ¬['*', '/'] <:+: body ++ ['*'] := by
  fun_induction splitComment cs generalizing inner with
  | case1 cs =>
    cases h
    exact ⟨[], rfl, by decide⟩
  | case2 c cs hnot ih =>
    obtain ⟨⟨i, r⟩, hs, hc⟩ := Option.map_eq_some_iff.mp h
    cases hc
    obtain ⟨body, rfl, hbody⟩ := ih hs
    refine ⟨c :: body, rfl, fun hinfix => ?_⟩
    rcases List.infix_cons_iff.mp hinfix with hhead | htail
    · -- the mark would be closed right here
      obtain ⟨tail, htail⟩ := hhead
      have happ := splitComment_append hs
      cases body with
      | nil => simp at htail
      | cons d body =>
        obtain ⟨rfl, rfl, -⟩ : '*' = c ∧ '/' = d ∧ _ := by simpa using htail
        exact hnot _ rfl happ.symm
    · exact hbody htail
  | case3 => cases h

omit [Alphabet] in
/-- A comment that cannot be closed has no closing mark. -/
theorem splitComment_none {cs : List Char} (h : splitComment cs = none) :
    ¬['*', '/'] <:+: cs := by
  fun_induction splitComment cs with
  | case1 cs => cases h
  | case2 c cs hnot ih =>
    rw [Option.map_eq_none_iff] at h
    rw [List.infix_cons_iff]
    rintro (⟨tail, htail⟩ | hinfix)
    · simp only [List.cons_append, List.nil_append, List.cons.injEq] at htail
      exact hnot tail htail.1.symm htail.2.symm
    · exact ih h hinfix
  | case3 => simp

theorem cutSlash_fits (cs : List Char) : (cutSlash cs).1.Fits (cutSlash cs).2 := by
  unfold cutSlash
  split
  · next cs =>
    obtain ⟨htaken, hnext⟩ := stretch (· ≠ '\n') cs
    refine Or.inr (Or.inl ⟨_, rfl, fun hmem => ?_, fun c hc => ?_⟩)
    · simpa using htaken _ hmem
    · simpa using hnext c hc
  · next cs =>
    split
    · next inner rest hsplit =>
      obtain ⟨body, rfl, hbody⟩ := splitComment_some hsplit
      exact Or.inr (Or.inr ⟨body, rfl, hbody⟩)
    · next hsplit => exact ⟨rfl, cs, rfl, splitComment_none hsplit⟩
  · next hline hblock =>
    -- a slash that opens no comment
    have hblank : isBlank '/' = false := by decide +kernel
    have hword : startsWord '/' = false := by
      rw [startsWord_of_ascii (by decide)]
      decide
    refine ⟨rfl, hblank, rfl, rfl, hword, fun _ => ⟨fun h => ?_, fun h => ?_⟩⟩
    · obtain ⟨tail, rfl⟩ := List.head?_eq_some_iff.mp h
      exact hline tail rfl
    · obtain ⟨tail, rfl⟩ := List.head?_eq_some_iff.mp h
      exact hblock tail rfl

theorem cutNumber_fits {c : Char} (hc : c.isDigit = true) (cs : List Char) :
    Piece.Fits ⟨numberRole (c :: cs.takeWhile goesOnNumber), c :: cs.takeWhile goesOnNumber⟩
      (cs.dropWhile goesOnNumber) := by
  obtain ⟨htaken, hnext⟩ := stretch goesOnNumber cs
  have hrun : IsDigitRun (c :: cs.takeWhile goesOnNumber) (cs.dropWhile goesOnNumber) :=
    ⟨⟨c, _, rfl, hc, htaken⟩, hnext⟩
  rw [numberRole]
  split
  · next hmax => exact ⟨hrun, rfl, hmax⟩
  · next hmax => exact ⟨hrun, Nat.lt_of_not_le hmax⟩

theorem ofWord_spelled {text : String} {rest : List Char} (h : isWord text = true)
    (hrest : Separated rest) : (Token.ofWord text).Spelled text.toList rest := by
  have hscanned := isScanned_ofWord h
  unfold Token.ofWord at hscanned ⊢
  split
  · next hlet => exact ⟨hlet ▸ rfl, rfl, fun _ _ _ => hrest⟩
  split
  · next hfn => exact ⟨hfn ▸ rfl, rfl, fun _ _ _ => hrest⟩
  split
  · next hreturn => exact ⟨hreturn ▸ rfl, rfl, fun _ _ _ => hrest⟩
  · next hlet hfn hreturn =>
    rw [if_neg hlet, if_neg hfn, if_neg hreturn] at hscanned
    exact ⟨rfl, hscanned, fun _ _ _ => hrest⟩

theorem ofMark?_spelled {c : Char} {t : Token} (h : Token.ofMark? c = some t) (rest : List Char) :
    t.Spelled [c] rest := by
  have hstart : ∀ d ∈ [c].head?, startsWord d = true → Separated rest := by
    intro d hd hstart
    obtain rfl : c = d := by simpa using hd
    have hgoes := goesOnWord_of_startsWord hstart
    rw [(goesOnWord_of_ofMark? h).1] at hgoes
    cases hgoes
  unfold Token.ofMark? at h
  split at h <;> cases h <;> exact ⟨rfl, rfl, hstart⟩

/-- **The first piece of a text is what it is taken for.** -/
theorem cut_fits (c : Char) (cs : List Char) : (cut c cs).1.Fits (cut c cs).2 := by
  unfold cut
  split
  -- the tests are made in the order of the scanner, and each kind of piece has its own lemma
  · next hblank => exact Or.inl ⟨c, rfl, hblank⟩
  split
  · exact cutSlash_fits cs
  split
  · next t hmark => exact ofMark?_spelled hmark cs
  split
  · next hdigit => exact cutNumber_fits hdigit cs
  split
  · next hstart =>
    obtain ⟨htaken, hnext⟩ := stretch goesOnWord cs
    -- all the letters and digits that follow belong to the word
    have hword : isWord (String.ofList (c :: cs.takeWhile goesOnWord)) = true := by
      simp [isWord, hstart]
    have hspelled := ofWord_spelled hword hnext
    rwa [String.toList_ofList] at hspelled
  -- nothing starts with the character, since all tests have failed
  · next hblank hslash _ hmark hdigit hstart =>
    simp only [Bool.not_eq_true] at hblank hdigit hstart
    exact ⟨rfl, hblank, Option.eq_none_iff_forall_ne_some.mpr hmark, hdigit, hstart,
      fun h => absurd h hslash⟩

/-! ### Positions -/

omit [Alphabet] in
theorem byteSize_eq (cs : List Char) : byteSize cs = (String.ofList cs).utf8ByteSize := by
  induction cs with
  | nil => rfl
  | cons c cs ih =>
    rw [byteSize, ih, String.ofList_cons, String.utf8ByteSize_append, String.utf8ByteSize_singleton]

omit [Alphabet] in
theorem byteSize_toList (s : String) : byteSize s.toList = s.utf8ByteSize := by
  rw [byteSize_eq, String.ofList_toList]

omit [Alphabet] in
theorem byteSize_pos {cs : List Char} (h : cs ≠ []) : 0 < byteSize cs := by
  cases cs with
  | nil => exact absurd rfl h
  | cons c cs =>
    have hc := c.utf8Size_pos
    rw [byteSize]
    omega

/-- The text stands in the source at the span, with the rest of the source behind it. -/
def Stands (source : List Char) (span : Span) (text rest : List Char) : Prop :=
  ∃ before, source = before ++ text ++ rest ∧
    span = ⟨byteSize before, byteSize before + byteSize text⟩

/-- The byte at a position lies in the span. -/
def Span.Holds (span : Span) (i : Nat) : Prop := span.start ≤ i ∧ i < span.stop

/-- The first span ends before the second one starts. -/
def Span.Before (a b : Span) : Prop := a.stop ≤ b.start

/-- The lexemes account for the text `cs` behind the text `before`.  They are in order, each stands
where its span says and is read from what stands there, and what they leave out is skipped. -/
structure Accounts (before cs : List Char) (found : List Lexeme) : Prop where
  length_le : found.length ≤ cs.length
  behind : ∀ l ∈ found, byteSize before ≤ l.span.start
  ordered : found.Pairwise fun l k => l.span.Before k.span
  read : ∀ l ∈ found, l.span.start < l.span.stop ∧ ∃ text rest,
    Stands (before ++ cs) l.span text rest ∧ l.ReadFrom text rest
  skipped : ∀ i, byteSize before ≤ i → i < byteSize (before ++ cs) →
    (∃ l ∈ found, l.span.Holds i) ∨ ∃ span text rest, byteSize before ≤ span.start ∧
      span.Holds i ∧ Stands (before ++ cs) span text rest ∧ Skippable text rest ∧
      ∀ l ∈ found, span.Before l.span ∨ l.span.Before span

namespace Accounts

variable {before text rest : List Char} {found : List Lexeme}

theorem nil : Accounts before [] [] where
  length_le := Nat.le_refl _
  behind := by simp
  ordered := .nil
  read := by simp
  skipped := by
    intro i hle hlt
    rw [List.append_nil] at hlt
    omega

/-- A text that is skipped. -/
theorem skip (h : Accounts (before ++ text) rest found) (htext : Skippable text rest) :
    Accounts before (text ++ rest) found where
  length_le := by
    have := h.length_le
    rw [List.length_append]
    omega
  behind := fun l hl => by
    have := h.behind l hl
    rw [byteSize_append] at this
    omega
  ordered := h.ordered
  read := by
    rw [← List.append_assoc]
    exact h.read
  skipped := by
    intro i hle hlt
    rw [← List.append_assoc] at hlt ⊢
    by_cases hi : i < byteSize (before ++ text)
    · -- the byte is one of the text that is skipped
      exact Or.inr ⟨⟨byteSize before, byteSize (before ++ text)⟩, text, rest, Nat.le_refl _,
        ⟨hle, hi⟩, ⟨before, rfl, by rw [byteSize_append]⟩, htext,
        fun l hl => Or.inl (h.behind l hl)⟩
    · rcases h.skipped i (Nat.le_of_not_lt hi) hlt with hfound | ⟨span, u, r, hbehind, hspan⟩
      · exact Or.inl hfound
      · rw [byteSize_append] at hbehind
        exact Or.inr ⟨span, u, r, by omega, hspan⟩

/-- A lexeme with its text. -/
theorem cons (h : Accounts (before ++ text) rest found) (htext : text ≠ [])
    {val : Except LexCause Token} (hval : ∀ span, Lexeme.ReadFrom ⟨val, span⟩ text rest) :
    Accounts before (text ++ rest)
      (⟨val, ⟨byteSize before, byteSize before + byteSize text⟩⟩ :: found) where
  length_le := by
    have := h.length_le
    have := List.length_pos_iff.mpr htext
    rw [List.length_append, List.length_cons]
    omega
  behind := by
    refine List.forall_mem_cons.mpr ⟨Nat.le_refl _, fun l hl => ?_⟩
    have := h.behind l hl
    rw [byteSize_append] at this
    omega
  ordered := by
    refine List.pairwise_cons.mpr ⟨fun l hl => ?_, h.ordered⟩
    have := h.behind l hl
    rwa [byteSize_append] at this
  read := by
    rw [← List.append_assoc]
    refine List.forall_mem_cons.mpr ⟨⟨?_, text, rest, ⟨before, rfl, rfl⟩, hval _⟩, h.read⟩
    exact Nat.lt_add_of_pos_right (byteSize_pos htext)
  skipped := by
    intro i hle hlt
    rw [← List.append_assoc] at hlt ⊢
    -- a byte lies in this lexeme or behind it, where it is accounted for already
    by_cases hi : i < byteSize (before ++ text)
    · rw [byteSize_append] at hi
      exact Or.inl ⟨_, List.mem_cons_self, hle, hi⟩
    · rcases h.skipped i (Nat.le_of_not_lt hi) hlt with
        ⟨l, hl, hheld⟩ | ⟨span, u, r, hbehind, hheld, hstands, hskip, happart⟩
      · exact Or.inl ⟨l, List.mem_cons_of_mem _ hl, hheld⟩
      · rw [byteSize_append] at hbehind
        exact Or.inr ⟨span, u, r, by omega, hheld, hstands, hskip,
          List.forall_mem_cons.mpr ⟨Or.inr hbehind, happart⟩⟩

end Accounts

/-- What is found in the pieces of a text accounts for it, and the end of the text follows. -/
theorem locate_pieces_account (before cs : List Char) :
    ∃ found, Accounts before cs found ∧ locate (byteSize before) (pieces cs) =
      found ++ [⟨.ok .eof, ⟨byteSize (before ++ cs), byteSize (before ++ cs)⟩⟩] := by
  fun_induction pieces cs generalizing before with
  | case1 => exact ⟨[], .nil, by simp [locate]⟩
  | case2 c cs ih =>
    obtain ⟨found, hfound, hlocate⟩ := ih (before ++ (cut c cs).1.text)
    have hfits := cut_fits c cs
    have hne := cut_ne_nil c cs
    -- the text is its first piece and the rest, which is accounted for behind that piece
    rw [← cut_append c cs]
    rw [List.append_assoc, byteSize_append before (cut c cs).1.text] at hlocate
    rw [locate]
    unfold Piece.Fits at hfits
    cases hrole : (cut c cs).1.role with
    | blank | comment =>
      rw [hrole] at hfits
      exact ⟨found, hfound.skip hfits, hlocate⟩
    | token t =>
      rw [hrole] at hfits
      have hread : ∀ span, Lexeme.ReadFrom ⟨.ok t, span⟩ _ _ := fun _ => hfits
      exact ⟨_, hfound.cons hne hread, congrArg _ hlocate⟩
    | fault cause =>
      rw [hrole] at hfits
      have hread : ∀ span, Lexeme.ReadFrom ⟨.error cause, span⟩ _ _ := fun _ => hfits
      exact ⟨_, hfound.cons hne hread, congrArg _ hlocate⟩

/-! ### Numbers -/

/-- A text that starts with a digit is that of an integer. -/
theorem Token.Spelled.int_of_isDigit {t : Token} {c : Char} {w rest : List Char}
    (h : t.Spelled (c :: w) rest) (hc : c.isDigit = true) : ∃ n, t = .int n := by
  cases t with
  | int n => exact ⟨n, rfl⟩
  | eof => exact h.elim
  -- a word does not start with a digit
  | ident name =>
    obtain ⟨htext, hscanned, -⟩ := h
    simp only [Token.isScanned, isName, Bool.and_eq_true, isWord] at hscanned
    rw [show name.toList = c :: w from htext] at hscanned
    simp only [Bool.and_eq_true] at hscanned
    simp [isDigit_of_startsWord hscanned.1.1] at hc
  -- all the other texts are fixed, and none of them starts with a digit
  | _ =>
    obtain ⟨htext, -⟩ := h
    have hhead := congrArg List.head? htext
    cases hhead
    cases hc

/-- A number is too large exactly if it is a run of digits with too large a value. -/
theorem Lexeme.ReadFrom.largeNumber_iff {l : Lexeme} {text rest : List Char}
    (h : l.ReadFrom text rest) :
    l.val = .error .largeNumber ↔ IsDigitRun text rest ∧ 2 ^ 63 - 1 < runValue text := by
  obtain ⟨val, span⟩ := l
  unfold Lexeme.ReadFrom at h
  refine ⟨fun hval => ?_, fun ⟨⟨⟨c, w, htext, hc, _⟩, _⟩, hlarge⟩ => ?_⟩
  · simp only at hval h
    subst hval
    exact h
  -- conversely, a run of digits is read as a number, and one that is in range has a smaller value
  · subst htext
    cases val with
    | ok t =>
      obtain ⟨n, rfl⟩ := Token.Spelled.int_of_isDigit h hc
      exact absurd h.2.2 (Nat.not_le.mpr hlarge)
    | error cause =>
      cases cause with
      | largeNumber => rfl
      | unexpected d =>
        obtain ⟨htext, -, -, hdigit, -⟩ := h
        cases htext
        simp [hdigit] at hc
      | openComment =>
        obtain ⟨-, body, htext, -⟩ := h
        cases htext
        cases hc

/-! ### Texts -/

omit [Alphabet] in
theorem locate_ne_nil (start : Nat) (ps : List Piece) : locate start ps ≠ [] := by
  induction ps generalizing start with
  | nil => simp [locate]
  | cons p ps ih =>
    rw [locate]
    split
    · exact ih _
    · exact ih _
    · simp
    · simp

namespace Scanner

/-- The lexemes that are ahead, closed by the end of the text. -/
def ahead (s : Scanner) : List Lexeme := locate s.position (pieces s.rest)

/-- The next lexeme is the first one ahead.  Behind it there are the others, or, if it is the only
one, again the same. -/
theorem ahead_eq (s : Scanner) :
    s.ahead = s.next.1 :: s.next.2.ahead ∨
      s.ahead = [s.next.1] ∧ s.next.2.ahead = [s.next.1] := by
  fun_induction next s with
  | case1 position => exact Or.inr ⟨by simp [ahead, locate], by simp [ahead, locate]⟩
  | case2 position c cs stop left hrole ih | case3 position c cs stop left hrole ih =>
    -- what is skipped is not ahead
    have hskip : ahead ⟨position, c :: cs⟩ = left.ahead := by
      rw [ahead, pieces, locate, hrole]
      rfl
    rwa [hskip]
  | case4 position c cs stop left t hrole =>
    refine Or.inl ?_
    rw [ahead, pieces, locate, hrole]
    rfl
  | case5 position c cs stop left cause hrole =>
    refine Or.inl ?_
    rw [ahead, pieces, locate, hrole]
    rfl

/-- However many lexemes are read, they are those ahead, and then the last one again and again. -/
theorem read_eq {found : List Lexeme} {last : Lexeme} (count : Nat) {s : Scanner}
    (h : s.ahead = found ++ [last]) :
    s.read count = found.take count ++ List.replicate (count - found.length) last := by
  induction count generalizing s found with
  | zero => simp [read]
  | succ count ih =>
    rw [read]
    rcases s.ahead_eq with hnext | ⟨honly, hsame⟩
    · cases found with
      | nil =>
        -- the last lexeme ahead has no other one behind it
        rw [h] at hnext
        exact absurd (List.cons.inj hnext).2.symm (locate_ne_nil _ _)
      | cons l found =>
        obtain ⟨rfl, hrest⟩ := List.cons.inj (h.symm.trans hnext)
        rw [ih hrest.symm]
        simp
    · have hfound : found = [] ∧ last = s.next.1 := by
        cases found with
        | nil => exact ⟨rfl, (List.cons.inj (h.symm.trans honly)).1⟩
        | cons l found => simp [honly] at h
      obtain ⟨rfl, rfl⟩ := hfound
      have hagain : s.next.2.ahead = [] ++ [s.next.1] := hsame
      rw [ih hagain]
      simp [List.replicate_succ]

end Scanner

/-- **The lexemes of a text account for all of it.**  However many are asked for, there is a fixed
list of them, at most one for every character, and then the end of the text again and again.  Their
spans are not empty and follow each other; each stands in the text between two characters and is
read from what stands there, and numbers are refused exactly if they are too large.  Every byte
outside their spans belongs to a blank or to a complete comment that is apart from them all. -/
theorem firstLexemes_account (source : String) :
    ∃ found : List Lexeme,
      (∀ count, firstLexemes source count = found.take count ++
        List.replicate (count - found.length)
          ⟨.ok .eof, ⟨source.utf8ByteSize, source.utf8ByteSize⟩⟩) ∧
      found.length ≤ source.length ∧
      (found.Pairwise fun l k => l.span.Before k.span) ∧
      (∀ l ∈ found, l.span.start < l.span.stop ∧ ∃ text rest,
        Stands source.toList l.span text rest ∧ l.ReadFrom text rest ∧
        (l.val = .error .largeNumber ↔ IsDigitRun text rest ∧ 2 ^ 63 - 1 < runValue text)) ∧
      ∀ i < source.utf8ByteSize, (∃ l ∈ found, l.span.Holds i) ∨
        ∃ span text rest, span.Holds i ∧ Stands source.toList span text rest ∧
          Skippable text rest ∧ ∀ l ∈ found, span.Before l.span ∨ l.span.Before span := by
  -- the text is cut into pieces once; asking for lexemes walks along these
  obtain ⟨found, h, hlexemes⟩ := locate_pieces_account [] source.toList
  have hsize : byteSize ([] ++ source.toList) = source.utf8ByteSize := by
    rw [List.nil_append, byteSize_eq, String.ofList_toList]
  rw [hsize] at hlexemes
  refine ⟨found, fun count => Scanner.read_eq count hlexemes, ?_, h.ordered, fun l hl => ?_,
    fun i hi => ?_⟩
  · rw [← String.length_toList]
    exact h.length_le
  · obtain ⟨hspan, text, rest, hstands, hread⟩ := h.read l hl
    exact ⟨hspan, text, rest, hstands, hread, hread.largeNumber_iff⟩
  · rcases h.skipped i (Nat.zero_le i) (hsize ▸ hi) with
      hfound | ⟨span, text, rest, -, hspan⟩
    · exact Or.inl hfound
    · exact Or.inr ⟨span, text, rest, hspan⟩

end LetTyping
