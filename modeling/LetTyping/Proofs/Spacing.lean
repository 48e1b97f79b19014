import LetTyping.Proofs.Coverage
import Mathlib.Data.List.Chain

/-!
# Scanning undoes writing

Tokens may be written with blanks and comments between them, as many as one likes.  Two tokens that
consist of the characters of words need something between them; all others may touch.  Whatever
the spacing is, the scanner finds the tokens again, each where it was written.

## Main definitions

* `Filler` — a blank, or a comment with its end.
* `Spaced` — a token and what is written behind it.
* `Spaced.writeAll` — the text of tokens with their spacing.
* `Spaced.place` — the tokens with the spans of their texts.

## Main results

* `splitComment_of_not_infix` — a comment is closed where its end was written.
* `locate_filler` — nothing is found in a filler.
* `cut_token` — a token is cut off whole.
* `tokenize_writeAll` — **scanning undoes writing.**
-/

namespace LetTyping

section Writing

variable [Alphabet]

/-! ### Fillers -/

/-- What separates tokens.  A comment has its end: that of a line, or the closing mark. -/
inductive Filler where
  | blank (c : Char) (h : isBlank c = true)
  | line (body : List Char) (h : '\n' ∉ body)
  | block (body : List Char) (h : ¬['*', '/'] <:+: body)

namespace Filler

def text : Filler → List Char
  | blank c _ => [c]
  | line body _ => '/' :: '/' :: (body ++ ['\n'])
  | block body _ => '/' :: '*' :: (body ++ ['*', '/'])

/-- The text of some fillers. -/
def textAll (gap : List Filler) : List Char := gap.flatMap text

end Filler

omit [Alphabet] in
/-- A comment is closed where its end was written. -/
theorem splitComment_of_not_infix {body : List Char} (h : ¬['*', '/'] <:+: body)
    (rest : List Char) :
    splitComment (body ++ '*' :: '/' :: rest) = some (body ++ ['*', '/'], rest) := by
  induction body with
  | nil => rfl
  | cons c body ih =>
    rw [List.infix_cons_iff, not_or] at h
    have hnot : ∀ cs, c = '*' → body ++ '*' :: '/' :: rest = '/' :: cs → False := by
      rintro cs rfl hcs
      cases body with
      | nil => cases hcs
      | cons d body =>
        cases hcs
        exact h.1 ⟨body, rfl⟩
    rw [List.cons_append, splitComment.eq_2 _ _ hnot, ih h.2]
    rfl

omit [Alphabet] in
theorem isBlank_newline : isBlank '\n' = true := by decide +kernel

theorem cut_slash (cs : List Char) : cut '/' cs = cutSlash cs := by
  have hblank : isBlank '/' = false := by decide +kernel
  simp [cut, hblank]

/-- The text is passed over, whatever follows it. -/
theorem locate_filler (f : Filler) (pos : Nat) (rest : List Char) :
    locate pos (pieces (f.text ++ rest)) = locate (pos + byteSize f.text) (pieces rest) := by
  cases f with
  | blank c h =>
    show locate pos (pieces (c :: rest)) = _
    rw [pieces, cut_blank h, locate]
    rfl
  | line body h =>
    have htake : ∀ c ∈ body, decide (c ≠ '\n') = true := fun c hc => by
      simpa using fun heq : c = '\n' => h (heq ▸ hc)
    have hend : ∀ c ∈ ('\n' :: rest).head?, decide (c ≠ '\n') = false := by simp
    obtain ⟨htaken, hleft⟩ := takeWhile_append htake hend
    -- the comment ends before the newline, which is a blank
    have hcut : cut '/' ('/' :: (body ++ '\n' :: rest)) =
        (⟨.comment, '/' :: '/' :: body⟩, '\n' :: rest) := by
      rw [cut_slash, cutSlash, htaken, hleft]
    have htext : (Filler.line body h).text ++ rest = '/' :: '/' :: (body ++ '\n' :: rest) := by
      simp [Filler.text]
    have hsize : byteSize (Filler.line body h).text =
        byteSize ('/' :: '/' :: body) + byteSize ['\n'] := byteSize_append ('/' :: '/' :: body) _
    rw [htext, hsize, pieces, hcut, locate, pieces, cut_blank isBlank_newline, locate]
    simp only [Nat.add_assoc]
  | block body h =>
    have hcut : cut '/' ('*' :: (body ++ '*' :: '/' :: rest)) =
        (⟨.comment, (Filler.block body h).text⟩, rest) := by
      rw [cut_slash, cutSlash, splitComment_of_not_infix h]
      rfl
    have htext : (Filler.block body h).text ++ rest =
        '/' :: '*' :: (body ++ '*' :: '/' :: rest) := by
      simp [Filler.text]
    rw [htext, pieces, hcut, locate]

theorem locate_textAll (gap : List Filler) (pos : Nat) (rest : List Char) :
    locate pos (pieces (Filler.textAll gap ++ rest)) =
      locate (pos + byteSize (Filler.textAll gap)) (pieces rest) := by
  induction gap generalizing pos with
  | nil => rfl
  | cons f gap ih =>
    have htext : Filler.textAll (f :: gap) = f.text ++ Filler.textAll gap := List.flatMap_cons
    rw [htext, List.append_assoc, locate_filler, ih, byteSize_append, Nat.add_assoc]

/-- A word ends before a filler. -/
theorem Filler.separated {gap : List Filler} (h : gap ≠ []) (rest : List Char) :
    Separated (textAll gap ++ rest) := by
  cases gap with
  | nil => exact absurd rfl h
  | cons f gap =>
    cases f with
    | blank c hc => exact separated_cons.mpr (goesOnWord_of_isBlank hc)
    | line body hbody => exact separated_cons.mpr goesOnWord_slash
    | block body hbody => exact separated_cons.mpr goesOnWord_slash

/-! ### Tokens -/

/-- The token is written with the characters of words: it is a keyword, an identifier or an
integer. -/
def Token.isWordKind : Token → Bool
  | letWord | fnWord | returnWord | int _ | ident _ => true
  | _ => false

/-- A token of another kind is one character. -/
theorem Token.ofMark?_of_isWordKind {t : Token} (h : t.isScanned = true)
    (hword : t.isWordKind = false) : ∃ c, t.text.toList = [c] ∧ ofMark? c = some t := by
  cases t with
  | letWord | fnWord | returnWord | int _ | ident _ => cases hword
  | eof => cases h
  | _ => exact ⟨_, rfl, rfl⟩

/-- A token of this kind is an integer, or the word that it is written as. -/
theorem Token.ofWord_text {t : Token} (h : t.isScanned = true) (hword : t.isWordKind = true) :
    (∃ v, t = .int v) ∨ (isWord t.text = true ∧ ofWord t.text = t) := by
  cases t with
  | int v => exact .inl ⟨v, rfl⟩
  | ident x =>
    simp only [isScanned, isName, Bool.and_eq_true, decide_eq_true_eq] at h
    exact .inr h
  | letWord | fnWord | returnWord =>
    exact .inr ⟨isWord_of_letters (by decide) (by decide), by decide⟩
  | _ => cases hword

/-- **A token is cut off whole**, if no character behind it goes on its word. -/
theorem cut_token {t : Token} (h : t.isScanned = true) {rest : List Char}
    (hrest : t.isWordKind = true → Separated rest) :
    ∃ c w, t.text.toList = c :: w ∧ cut c (w ++ rest) = (⟨.token t, c :: w⟩, rest) := by
  cases hword : t.isWordKind with
  | false =>
    obtain ⟨c, htext, hmark⟩ := Token.ofMark?_of_isWordKind h hword
    exact ⟨c, [], htext, cut_mark hmark rest⟩
  | true =>
    rcases Token.ofWord_text h hword with ⟨v, rfl⟩ | ⟨hisWord, hofWord⟩
    · exact cut_ofInt h (hrest hword)
    · have hcut := cut_ofWord hisWord (hrest hword)
      rwa [hofWord] at hcut

theorem locate_token {t : Token} (h : t.isScanned = true) {rest : List Char}
    (hrest : t.isWordKind = true → Separated rest) (pos : Nat) :
    locate pos (pieces (t.text.toList ++ rest)) =
      ⟨.ok t, ⟨pos, pos + byteSize t.text.toList⟩⟩ ::
        locate (pos + byteSize t.text.toList) (pieces rest) := by
  obtain ⟨c, w, htext, hcut⟩ := cut_token h hrest
  rw [htext, List.cons_append, pieces, hcut, locate]

/-! ### Texts -/

/-- A token and what is written behind it. -/
structure Spaced where
  token : Token
  gap : List Filler

namespace Spaced

/-- Two tokens of words are not written without anything between them. -/
def MayPrecede (a b : Spaced) : Prop :=
  a.token.isWordKind = true → b.token.isWordKind = true → a.gap ≠ []

/-- The text of tokens with their spacing. -/
def writeAll : List Spaced → List Char
  | [] => []
  | a :: as => a.token.text.toList ++ (Filler.textAll a.gap ++ writeAll as)

/-- The tokens with the spans of their texts, which follow the text `before`, and the end of the
text. -/
def place (before : List Char) : List Spaced → List (Located Token)
  | [] => [⟨.eof, ⟨byteSize before, byteSize before⟩⟩]
  | a :: as => ⟨a.token, ⟨byteSize before, byteSize (before ++ a.token.text.toList)⟩⟩ ::
      place (before ++ a.token.text.toList ++ Filler.textAll a.gap) as

/-- A word ends before what may be written behind it. -/
theorem separated {a : Spaced} {as : List Spaced} (hscanned : ∀ b ∈ as, b.token.isScanned = true)
    (hchain : (a :: as).IsChain MayPrecede) (hword : a.token.isWordKind = true) :
    Separated (Filler.textAll a.gap ++ writeAll as) := by
  by_cases hgap : a.gap = []
  · rw [hgap]
    cases as with
    | nil => exact separated_nil
    | cons b as =>
      have hmark : b.token.isWordKind = false := Bool.eq_false_iff.mpr fun hb =>
        hchain.rel hword hb hgap
      obtain ⟨c, htext, hc⟩ := Token.ofMark?_of_isWordKind (hscanned b (by simp)) hmark
      rw [writeAll, htext]
      exact separated_cons.mpr (goesOnWord_of_ofMark? hc).1
  · exact Filler.separated hgap _

theorem locate_writeAll {as : List Spaced} (hscanned : ∀ a ∈ as, a.token.isScanned = true)
    (hchain : as.IsChain MayPrecede) (before : List Char) :
    locate (byteSize before) (pieces (writeAll as)) =
      (place before as).map fun t => ⟨.ok t.val, t.span⟩ := by
  induction as generalizing before with
  | nil =>
    rw [writeAll, pieces_nil]
    rfl
  | cons a as ih =>
    obtain ⟨ha, has⟩ := List.forall_mem_cons.mp hscanned
    rw [writeAll, locate_token ha (separated has hchain), locate_textAll, ← byteSize_append,
      ← byteSize_append, ih has hchain.tail]
    rfl

omit [Alphabet] in
theorem kinds_place (before : List Char) (as : List Spaced) :
    kinds (place before as) = as.map token ++ [.eof] := by
  induction as generalizing before with
  | nil => rfl
  | cons a as ih => rw [place, kinds_cons, ih, List.map_cons, List.cons_append]

omit [Alphabet] in
/-- Every token stands where it is placed. -/
theorem stands_place (before : List Char) (as : List Spaced) :
    ∀ t ∈ place before as, t.val ≠ .eof →
      ∃ rest, Stands (before ++ writeAll as) t.span t.val.text.toList rest := by
  induction as generalizing before with
  | nil => simp [place]
  | cons a as ih =>
    rw [place, List.forall_mem_cons, writeAll]
    refine ⟨fun _ => ⟨_, before, (List.append_assoc _ _ _).symm, by rw [byteSize_append]⟩, ?_⟩
    simpa only [List.append_assoc] using ih (before ++ a.token.text.toList ++ Filler.textAll a.gap)

omit [Alphabet] in
theorem getLast?_place (before : List Char) (as : List Spaced) :
    (place before as).getLast? = some ⟨.eof, ⟨byteSize (before ++ writeAll as),
      byteSize (before ++ writeAll as)⟩⟩ := by
  induction as generalizing before with
  | nil => simp [place, writeAll]
  | cons a as ih =>
    rw [place, List.getLast?_cons, ih, writeAll]
    simp only [Option.getD_some, List.append_assoc]

end Spaced

/-- **Scanning undoes writing.**  Tokens are written with blanks and comments before, between and
behind them, where two tokens may touch unless both are of words.  The scanner finds these tokens
and the end of the text, and each of them stands where it was written. -/
theorem tokenize_writeAll {lead : List Filler} {as : List Spaced}
    (hscanned : ∀ a ∈ as, a.token.isScanned = true) (hchain : as.IsChain Spaced.MayPrecede) :
    let text := Filler.textAll lead ++ Spaced.writeAll as
    let tokens := Spaced.place (Filler.textAll lead) as
    tokenize (String.ofList text) = .ok tokens ∧ kinds tokens = as.map Spaced.token ++ [.eof] ∧
      (∀ t ∈ tokens, t.val ≠ .eof → ∃ rest, Stands text t.span t.val.text.toList rest) ∧
      tokens.getLast? = some ⟨.eof, ⟨byteSize text, byteSize text⟩⟩ := by
  intro text tokens
  have hlexemes : lexemes (String.ofList text) =
      tokens.map fun t => ⟨.ok t.val, t.span⟩ := by
    rw [lexemes, String.toList_ofList, locate_textAll, Nat.zero_add,
      Spaced.locate_writeAll hscanned hchain]
  exact ⟨mapM_token?_ok_iff.mpr hlexemes, Spaced.kinds_place _ as, Spaced.stands_place _ as,
    Spaced.getLast?_place _ as⟩

end Writing

/-- A keyword and a name with only a comment between them. -/
theorem tokenize_writeAll_comments :
    let spaced : List Spaced := [
      ⟨.letWord, [.block ['*'] fun h => absurd h.length_le (by decide)]⟩, ⟨.ident "x", []⟩,
      ⟨.equals, []⟩, ⟨.int 12, []⟩, ⟨.semicolon, [.line ['é'] (by decide)]⟩]
    (∀ a ∈ spaced, a.token.isScanned = true) ∧ spaced.IsChain Spaced.MayPrecede ∧
      tokenize "\tlet/***/x=12;//é\n" = .ok [⟨.letWord, ⟨1, 4⟩⟩, ⟨.ident "x", ⟨9, 10⟩⟩,
        ⟨.equals, ⟨10, 11⟩⟩, ⟨.int 12, ⟨11, 13⟩⟩, ⟨.semicolon, ⟨13, 14⟩⟩, ⟨.eof, ⟨19, 19⟩⟩] := by
  intro spaced
  have hscanned : ∀ a ∈ spaced, a.token.isScanned = true := by
    simp only [spaced, List.forall_mem_cons]
    decide +kernel
  have hchain : spaced.IsChain Spaced.MayPrecede := by
    simp [spaced, Spaced.MayPrecede, Token.isWordKind]
  have htab : isBlank '\t' = true := by decide +kernel
  obtain ⟨htokens, -⟩ := @tokenize_writeAll unicode [.blank '\t' htab] spaced hscanned hchain
  exact ⟨hscanned, hchain, htokens⟩

end LetTyping
