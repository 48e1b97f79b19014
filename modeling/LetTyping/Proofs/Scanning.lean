import LetTyping.Proofs.Grammar

/-!
# Scanning

Which characters belong to words, how the first token is cut off a text, and which tokens a text is
made of.  A text is put together from pieces whose tokens are known: punctuation ends the word
before it, and a word is scanned as a whole if no character behind it goes on with it.

## Main definitions

* `Separated` — a word or number ends before the text.
* `Scans` — a text has the given tokens and no faults.
* `SpellsFreely`, `Spells` — a text is scanned to the given tokens, whatever follows it.
* `Punctuation` — blanks and punctuation.
* `isName`, `isLiteral`, `Token.isScanned` — names, integers and tokens as they come from a text.

## Main results

* `goesOnWord_of_isBlank`, `not_blank_of_goesOnWord` — characters of words and all others.
* `cut_word`, `cut_number`, `cut_mark` — the first token of a text.
* `spells_name`, `spells_int`, `Punctuation.spells` — names, integers and punctuation are scanned.
* `tokenize_ok` — **the tokens of a text, of which only the last is the end of the text.**
-/

namespace LetTyping

/-! ### Characters -/

variable [Alphabet]

theorem startsWord_of_ascii {c : Char} (hc : c.toNat < 128) :
    startsWord c = (c.isAlpha || c = '_') := by
  rw [startsWord, Alphabet.isAlphabetic_of_ascii c hc]

theorem goesOnWord_of_ascii {c : Char} (hc : c.toNat < 128) :
    goesOnWord c = (c.isAlpha || c.isDigit || c = '_') := by
  rw [goesOnWord, Alphabet.isAlphabetic_of_ascii c hc, Alphabet.isNumeric_of_ascii c hc]

/-- No blank character belongs to a word. -/
theorem goesOnWord_of_isBlank {c : Char} (h : isBlank c = true) : goesOnWord c = false := by
  have hne : c ≠ '_' := by
    rintro rfl
    exact absurd h (by decide +kernel)
  simp [goesOnWord, Alphabet.not_isAlphabetic_of_isBlank c h, Alphabet.not_isNumeric_of_isBlank c h,
    hne]

theorem goesOnWord_slash : goesOnWord '/' = false := by
  rw [goesOnWord_of_ascii (by decide)]
  decide

/-- No punctuation character belongs to a word, or is blank or a slash. -/
theorem goesOnWord_of_ofMark? {c : Char} {t : Token} (h : Token.ofMark? c = some t) :
    goesOnWord c = false ∧ isBlank c = false ∧ c ≠ '/' := by
  have hascii : c.toNat < 128 ∧ (c.isAlpha || c.isDigit || c = '_') = false ∧
      isBlank c = false ∧ c ≠ '/' := by
    unfold Token.ofMark? at h
    split at h <;> first | decide +kernel | cases h
  rw [goesOnWord_of_ascii hascii.1]
  exact hascii.2

omit [Alphabet] in
theorem isDigit_iff {c : Char} : c.isDigit = true ↔ 48 ≤ c.toNat ∧ c.toNat ≤ 57 := by
  rw [isDigit_eq, decide_eq_true_iff]

/-- Digits belong to words. -/
theorem goesOnWord_of_isDigit {c : Char} (h : c.isDigit = true) : goesOnWord c = true := by
  have hc := (isDigit_iff.mp h).2
  simp [goesOnWord_of_ascii (show c.toNat < 128 by omega), h]

/-- Digits do not start words. -/
theorem isDigit_of_startsWord {c : Char} (h : startsWord c = true) : c.isDigit = false := by
  refine Bool.eq_false_iff.mpr fun hdigit => ?_
  rw [isDigit_iff] at hdigit
  rw [startsWord_of_ascii (by omega), isAlpha_eq] at h
  simp only [Bool.or_eq_true, decide_eq_true_iff] at h
  rcases h with hletter | rfl
  · omega
  · exact absurd hdigit (by decide)

/-- Characters of words are not blank, no slashes, and no punctuation. -/
theorem not_blank_of_goesOnWord {c : Char} (h : goesOnWord c = true) :
    isBlank c = false ∧ c ≠ '/' ∧ Token.ofMark? c = none := by
  refine ⟨?_, ?_, ?_⟩
  · refine Bool.eq_false_iff.mpr fun hblank => ?_
    simp [goesOnWord_of_isBlank hblank] at h
  · rintro rfl
    simp [goesOnWord_slash] at h
  · refine Option.eq_none_iff_forall_ne_some.mpr fun t ht => ?_
    simp [(goesOnWord_of_ofMark? ht).1] at h

/-! ### Cutting off tokens -/

/-- A word or number before the text ends there. -/
def Separated (cs : List Char) : Prop := ∀ c ∈ cs.head?, goesOnWord c = false

theorem separated_cons {c : Char} {cs : List Char} :
    Separated (c :: cs) ↔ goesOnWord c = false := by
  simp [Separated]

theorem separated_nil : Separated [] := by simp [Separated]

section Cut

variable {c : Char} {cs w : List Char}

theorem goesOnWord_of_goesOnNumber (h : goesOnNumber c = true) : goesOnWord c = true := by
  rcases Bool.or_eq_true_iff.mp h with h | h
  · exact goesOnWord_of_isDigit h
  · simp [goesOnWord, h]

theorem goesOnWord_of_startsWord (h : startsWord c = true) : goesOnWord c = true := by
  rcases Bool.or_eq_true_iff.mp h with h | h <;> simp [goesOnWord, h]

omit [Alphabet] in
/-- A stretch of characters is taken up to where the next character ends it. -/
theorem takeWhile_append {p : Char → Bool} (hw : ∀ c ∈ w, p c = true)
    (hcs : ∀ c ∈ cs.head?, p c = false) :
    (w ++ cs).takeWhile p = w ∧ (w ++ cs).dropWhile p = cs := by
  rw [List.takeWhile_append_of_pos hw, List.dropWhile_append_of_pos hw]
  cases cs with
  | nil => simp
  | cons c cs => simp [hcs c (by simp)]

theorem cut_blank (h : isBlank c = true) (cs : List Char) : cut c cs = (⟨.blank, [c]⟩, cs) :=
  if_pos h

theorem cut_mark {t : Token} (h : Token.ofMark? c = some t) (cs : List Char) :
    cut c cs = (⟨.token t, [c]⟩, cs) := by
  obtain ⟨-, hblank, hslash⟩ := goesOnWord_of_ofMark? h
  simp [cut, hblank, hslash, h]

theorem cut_word (hc : startsWord c = true) (hw : ∀ d ∈ w, goesOnWord d = true)
    (hcs : Separated cs) :
    cut c (w ++ cs) = (⟨.token (.ofWord (String.ofList (c :: w))), c :: w⟩, cs) := by
  obtain ⟨hblank, hslash, hmark⟩ := not_blank_of_goesOnWord (goesOnWord_of_startsWord hc)
  obtain ⟨htake, hdrop⟩ := takeWhile_append hw hcs
  simp [cut, hblank, hslash, hmark, isDigit_of_startsWord hc, hc, htake, hdrop]

theorem cut_number (hc : c.isDigit = true) (hw : ∀ d ∈ w, d.isDigit = true) (hcs : Separated cs)
    (hmax : Decimal.value (c :: w) ≤ maxInt) :
    cut c (w ++ cs) = (⟨.token (.int (Decimal.value (c :: w))), c :: w⟩, cs) := by
  obtain ⟨hblank, hslash, hmark⟩ := not_blank_of_goesOnWord (goesOnWord_of_isDigit hc)
  have hnumber : ∀ d ∈ w, goesOnNumber d = true := fun d hd => by simp [goesOnNumber, hw d hd]
  -- what does not go on a word does not go on a number either
  have hend : ∀ d ∈ cs.head?, goesOnNumber d = false := by
    intro d hd
    have hcs' := hcs d hd
    refine Bool.eq_false_iff.mpr fun h => ?_
    simp [goesOnWord_of_goesOnNumber h] at hcs'
  obtain ⟨htake, hdrop⟩ := takeWhile_append hnumber hend
  -- there are no underscores to be left out among digits
  have hfilter : (c :: w).filter (· ≠ '_') = c :: w := by
    refine List.filter_eq_self.mpr fun d hd => ?_
    have hdigit : d.isDigit = true := by
      rcases List.mem_cons.mp hd with rfl | hd
      · exact hc
      · exact hw d hd
    simp only [decide_eq_true_eq]
    rintro rfl
    cases hdigit
  have hrole : numberRole (c :: w) = .token (.int (Decimal.value (c :: w))) := by
    simp only [numberRole, hfilter, hmax, if_true]
  simp [cut, hblank, hslash, hmark, hc, htake, hdrop, hrole]

end Cut

/-! ### Texts and their tokens -/

/-- The text has the tokens and no faults. -/
def Scans (cs : List Char) (ts : List Token) : Prop :=
  ∀ start, ∃ tokens, (locate start (pieces cs)).mapM Lexeme.token? = .ok tokens ∧
    kinds tokens = ts ++ [.eof]

namespace Scans

variable {c : Char} {cs rest text : List Char} {ts : List Token} {t : Token}

theorem nil : Scans [] [] := by
  intro start
  rw [pieces_nil]
  exact ⟨_, rfl, rfl⟩

theorem of_cut_token (hcut : cut c cs = (⟨.token t, text⟩, rest)) (h : Scans rest ts) :
    Scans (c :: cs) (t :: ts) := by
  intro start
  obtain ⟨tokens, htokens, hkinds⟩ := h (start + byteSize text)
  rw [pieces, hcut, locate, List.mapM_cons, htokens]
  exact ⟨_, rfl, by simp [hkinds]⟩

theorem of_cut_blank (hcut : cut c cs = (⟨.blank, text⟩, rest)) (h : Scans rest ts) :
    Scans (c :: cs) ts := by
  intro start
  rw [pieces, hcut]
  exact h (start + byteSize text)

end Scans

/-- The text is scanned to the tokens, whatever follows it. -/
def SpellsFreely (text : String) (ts : List Token) : Prop :=
  ∀ cs us, Scans cs us → Scans (text.toList ++ cs) (ts ++ us)

/-- The text is scanned to the tokens if no character behind it goes on its last word. -/
def Spells (text : String) (ts : List Token) : Prop :=
  ∀ cs us, Separated cs → Scans cs us → Scans (text.toList ++ cs) (ts ++ us)

theorem SpellsFreely.spells {text : String} {ts : List Token} (h : SpellsFreely text ts) :
    Spells text ts := fun cs us _ hcs => h cs us hcs

/-- The character may stand between words. -/
def isMark (c : Char) : Bool := isBlank c || (Token.ofMark? c).isSome

/-- The text is not empty and has blanks and punctuation only, which stands for the tokens. -/
structure Punctuation (text : String) (ts : List Token) : Prop where
  nonempty : text.toList.isEmpty = false
  marks : text.toList.all isMark = true
  tokens : text.toList.filterMap Token.ofMark? = ts

/-- Blanks and punctuation are scanned to the punctuation. -/
theorem scans_marks {w cs : List Char} {us : List Token} (hw : w.all isMark = true)
    (h : Scans cs us) : Scans (w ++ cs) (w.filterMap Token.ofMark? ++ us) := by
  induction w with
  | nil => exact h
  | cons c w ih =>
    rw [List.all_cons, Bool.and_eq_true] at hw
    cases hmark : Token.ofMark? c with
    | some t =>
      rw [List.filterMap_cons_some hmark]
      exact .of_cut_token (cut_mark hmark _) (ih hw.2)
    | none =>
      rw [List.filterMap_cons_none hmark]
      have hblank : isBlank c = true := by simpa [isMark, hmark] using hw.1
      exact .of_cut_blank (cut_blank hblank _) (ih hw.2)

theorem Punctuation.spells {text : String} {ts : List Token} (h : Punctuation text ts) :
    SpellsFreely text ts := by
  obtain ⟨-, hmarks, rfl⟩ := h
  exact fun cs us hcs => scans_marks hmarks hcs

/-- No character between words belongs to one. -/
theorem goesOnWord_of_isMark {c : Char} (h : isMark c = true) : goesOnWord c = false := by
  rcases Bool.or_eq_true_iff.mp h with hblank | hmark
  · exact goesOnWord_of_isBlank hblank
  · obtain ⟨t, ht⟩ := Option.isSome_iff_exists.mp hmark
    exact (goesOnWord_of_ofMark? ht).1

/-- Words end before punctuation. -/
theorem Punctuation.separated {text : String} {ts : List Token} (h : Punctuation text ts)
    (cs : List Char) : Separated (text.toList ++ cs) := by
  obtain ⟨hne, hmarks, -⟩ := h
  cases hw : text.toList with
  | nil => simp [hw] at hne
  | cons c w =>
    rw [hw, List.all_cons, Bool.and_eq_true] at hmarks
    exact separated_cons.mpr (goesOnWord_of_isMark hmarks.1)

section Spelling

variable {a b : String} {ts us : List Token}

theorem SpellsFreely.then (ha : SpellsFreely a ts) (hb : Spells b us) :
    Spells (a ++ b) (ts ++ us) := by
  intro cs vs hsep hcs
  rw [String.toList_append, List.append_assoc, List.append_assoc]
  exact ha _ _ (hb cs vs hsep hcs)

theorem SpellsFreely.append (ha : SpellsFreely a ts) (hb : SpellsFreely b us) :
    SpellsFreely (a ++ b) (ts ++ us) := by
  intro cs vs hcs
  rw [String.toList_append, List.append_assoc, List.append_assoc]
  exact ha _ _ (hb cs vs hcs)

/-- Behind a word there is punctuation. -/
theorem Spells.punctuated (ha : Spells a ts) (hb : Punctuation b us) :
    SpellsFreely (a ++ b) (ts ++ us) := by
  intro cs vs hcs
  rw [String.toList_append, List.append_assoc, List.append_assoc]
  exact ha _ _ (hb.separated cs) (hb.spells cs vs hcs)

end Spelling

/-! ### Names and numbers -/

/-- The text starts like a word and goes on like one. -/
def isWord (text : String) : Bool :=
  match text.toList with
  | [] => false
  | c :: w => startsWord c && w.all goesOnWord

theorem isWord_of_letters {text : String} (hne : text.toList ≠ [])
    (h : text.toList.all Char.isAlpha = true) : isWord text = true := by
  have hletter : ∀ c : Char, c.isAlpha = true → startsWord c = true ∧ goesOnWord c = true := by
    intro c hc
    have hascii : c.toNat < 128 := by
      rw [isAlpha_eq, Bool.or_eq_true, decide_eq_true_iff, decide_eq_true_iff] at hc
      omega
    simp [startsWord_of_ascii hascii, goesOnWord_of_ascii hascii, hc]
  unfold isWord
  split
  · next heq => exact absurd heq hne
  · next c w heq =>
    rw [heq, List.all_cons, Bool.and_eq_true, List.all_eq_true] at h
    rw [Bool.and_eq_true, List.all_eq_true]
    exact ⟨(hletter c h.1).1, fun d hd => (hletter d (h.2 d hd)).2⟩

/-- The text is a name: a word that is no keyword. -/
def isName (text : String) : Bool := isWord text && Token.ofWord text = .ident text

/-- The number is an integer literal of the language. -/
def isLiteral (v : Int) : Bool := 0 ≤ v && v ≤ maxInt

/-- A word is cut off whole. -/
theorem cut_ofWord {text : String} (h : isWord text = true) {cs : List Char}
    (hsep : Separated cs) : ∃ c w, text.toList = c :: w ∧
      cut c (w ++ cs) = (⟨.token (.ofWord text), c :: w⟩, cs) := by
  unfold isWord at h
  split at h
  · cases h
  · next c w htext =>
    simp only [Bool.and_eq_true, List.all_eq_true] at h
    have hcut := cut_word h.1 h.2 hsep
    rw [← htext, String.ofList_toList, htext] at hcut
    exact ⟨c, w, htext, hcut⟩

theorem spells_word {text : String} (h : isWord text = true) : Spells text [.ofWord text] := by
  intro cs us hsep hcs
  obtain ⟨c, w, htext, hcut⟩ := cut_ofWord h hsep
  rw [htext]
  exact .of_cut_token hcut hcs

theorem spells_name {x : String} (h : isName x = true) : Spells x [.ident x] := by
  simp only [isName, Bool.and_eq_true, decide_eq_true_eq] at h
  exact h.2 ▸ spells_word h.1

/-- A numeral is cut off whole. -/
theorem cut_ofInt {v : Int} (h : isLiteral v = true) {cs : List Char} (hsep : Separated cs) :
    ∃ c w, (Decimal.ofInt v).toList = c :: w ∧
      cut c (w ++ cs) = (⟨.token (.int v), c :: w⟩, cs) := by
  simp only [isLiteral, Bool.and_eq_true, decide_eq_true_eq] at h
  obtain ⟨n, rfl⟩ := Int.eq_ofNat_of_zero_le h.1
  have hdigits : ∀ c ∈ (Decimal.ofNat n).toList, c.isDigit = true := by
    intro c hc
    rw [Decimal.toList_ofNat] at hc
    exact Nat.isDigit_of_mem_toDigits (by omega) (by omega) hc
  have hvalue : Decimal.value (Decimal.ofNat n).toList = n := Decimal.value_toList_ofNat n
  show ∃ c w, (Decimal.ofNat n).toList = c :: w ∧ _
  -- a numeral has a first digit, with which the token is cut off
  cases hw : (Decimal.ofNat n).toList with
  | nil =>
    rw [Decimal.toList_ofNat] at hw
    exact absurd hw Nat.toDigits_ne_nil
  | cons c w =>
    rw [hw] at hdigits hvalue
    obtain ⟨hc, hrest⟩ := List.forall_mem_cons.mp hdigits
    have hcut := cut_number hc hrest hsep (by omega)
    rw [hvalue] at hcut
    exact ⟨c, w, rfl, hcut⟩

theorem spells_int {v : Int} (h : isLiteral v = true) : Spells (Decimal.ofInt v) [.int v] := by
  intro cs us hsep hcs
  obtain ⟨c, w, htext, hcut⟩ := cut_ofInt h hsep
  rw [htext]
  exact .of_cut_token hcut hcs

/-! ### Tokens of texts -/

/-- The token may come from a text: names and integers are as they are written there.  The end of
the text is no such token. -/
def Token.isScanned : Token → Bool
  | int v => isLiteral v
  | ident x => isName x
  | eof => false
  | _ => true

/-- All the tokens may come from a text. -/
def Scanned (ts : List Token) : Prop := ∀ token ∈ ts, token.isScanned = true

theorem Scanned.tail {token : Token} {ts : List Token} (h : Scanned (token :: ts)) : Scanned ts :=
  (List.forall_mem_cons.mp h).2

theorem Scanned.ne_eof {body : List (Located Token)} (h : Scanned (kinds body)) :
    ∀ token ∈ body, token.val ≠ .eof := by
  intro token htoken heof
  have hscanned := h token.val (List.mem_map_of_mem htoken)
  rw [heof] at hscanned
  cases hscanned

theorem isScanned_of_ofMark? {c : Char} {t : Token} (h : Token.ofMark? c = some t) :
    t.isScanned = true := by
  unfold Token.ofMark? at h
  split at h <;> cases h <;> rfl

theorem isScanned_ofWord {text : String} (h : isWord text = true) :
    (Token.ofWord text).isScanned = true := by
  unfold Token.ofWord
  split
  · rfl
  split
  · rfl
  split
  · rfl
  · next hlet hfn hreturn => simp [Token.isScanned, isName, h, Token.ofWord, hlet, hfn, hreturn]

theorem isScanned_cut {c : Char} {cs : List Char} {t : Token}
    (h : (cut c cs).1.role = .token t) : t.isScanned = true := by
  unfold cut at h
  split at h
  · cases h
  split at h
  -- a slash starts a comment or is a fault
  · unfold cutSlash at h
    split at h
    · cases h
    · split at h <;> cases h
    · cases h
  split at h
  · next hmark =>
    cases h
    exact isScanned_of_ofMark? hmark
  split at h
  · simp only [numberRole] at h
    split at h
    · next hmax =>
      cases h
      simpa [Token.isScanned, isLiteral] using hmax
    · cases h
  split at h
  · next hstart =>
    cases h
    refine isScanned_ofWord ?_
    simp [isWord, hstart, List.all_takeWhile]
  · cases h

theorem isScanned_pieces {cs : List Char} :
    ∀ p ∈ pieces cs, ∀ t, p.role = .token t → t.isScanned = true := by
  fun_induction pieces cs with
  | case1 => simp
  | case2 c cs ih =>
    intro p hp t ht
    rcases List.mem_cons.mp hp with rfl | hp
    · exact isScanned_cut ht
    · exact ih p hp t ht

/-- The tokens of pieces are closed by the end of the text. -/
theorem locate_ok {ps : List Piece} {start : Nat} {tokens : List (Located Token)}
    (hps : ∀ p ∈ ps, ∀ t, p.role = .token t → t.isScanned = true)
    (h : (locate start ps).mapM Lexeme.token? = .ok tokens) :
    ∃ body stop, tokens = body ++ [stop] ∧ stop.val = .eof ∧ Scanned (kinds body) := by
  induction ps generalizing start tokens with
  | nil =>
    cases h
    exact ⟨[], _, rfl, rfl, by simp [Scanned]⟩
  | cons p ps ih =>
    obtain ⟨hp, hps⟩ := List.forall_mem_cons.mp hps
    unfold locate at h
    cases hrole : p.role with
    | blank | comment =>
      rw [hrole] at h
      exact ih hps h
    | fault cause =>
      rw [hrole] at h
      cases h
    | token t =>
      rw [hrole, List.mapM_cons] at h
      cases hrest : (locate (start + byteSize p.text) ps).mapM Lexeme.token? with
      | error e =>
        rw [hrest] at h
        cases h
      | ok rest =>
        rw [hrest] at h
        cases h
        obtain ⟨body, stop, rfl, hstop, hbody⟩ := ih hps hrest
        refine ⟨_ :: body, stop, rfl, hstop, ?_⟩
        exact List.forall_mem_cons.mpr ⟨hp t hrole, hbody⟩

omit [Alphabet] in
/-- Lexemes without faults are the tokens. -/
theorem mapM_token?_ok_iff {ls : List Lexeme} {tokens : List (Located Token)} :
    ls.mapM Lexeme.token? = .ok tokens ↔ ls = tokens.map fun t => ⟨.ok t.val, t.span⟩ := by
  constructor
  · intro h
    induction ls generalizing tokens with
    | nil =>
      cases h
      rfl
    | cons l ls ih =>
      obtain ⟨val, span⟩ := l
      rw [List.mapM_cons] at h
      cases val with
      | error cause => cases h
      | ok t =>
        cases hls : ls.mapM Lexeme.token? with
        | error e =>
          rw [hls] at h
          cases h
        | ok rest =>
          rw [hls] at h
          cases h
          rw [ih hls]
          rfl
  · rintro rfl
    induction tokens with
    | nil => rfl
    | cons t tokens ih =>
      rw [List.map_cons, List.mapM_cons, ih]
      rfl

/-- The tokens of a text end with the end of the text, and nowhere before. -/
theorem tokenize_ok {source : String} {tokens : List (Located Token)}
    (h : tokenize source = .ok tokens) :
    ∃ body stop, tokens = body ++ [stop] ∧ stop.val = .eof ∧ Scanned (kinds body) :=
  locate_ok isScanned_pieces h

end LetTyping
