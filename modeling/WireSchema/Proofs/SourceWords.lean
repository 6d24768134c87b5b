import WireSchema.Proofs.AddressGrammar
import WireSchema.Proofs.CodecNames

/-!
# Words of source text

A scan of emitted source text finds the words that the text refers to: those outside of comments and
of quoted texts that are neither members of a path nor the names of constants being declared
(`references`).  What a text mentions, up to some words that do not matter, is put together from
what its pieces mention, as long as no two of them run together in one word (`Reads.append`,
`Reads.mentions`, `Mentions.reads`), and what lines mention from what each of them does
(`LinesMention`).
-/

namespace WireSchema

namespace Emit

open Name (isWordChar)

/-! ## Scanning -/

/-- What a place of source text is within. -/
inductive Mode where
  | code
  /-- Behind a slash that may begin a comment. -/
  | slash
  | comment
  | text
  /-- Behind a backslash in a quoted text. -/
  | escape
  deriving DecidableEq

/-- What stands before a word. -/
inductive Lead where
  | free
  | colon
  /-- The path that the word is a member of, or the keyword that declares it as a constant. -/
  | bound
  deriving DecidableEq

/-- A place of source text, with the word that it is in, last character first. -/
structure Scan where
  mode : Mode := .code
  lead : Lead := .free
  word : List Char := []
  deriving DecidableEq

namespace Scan

/-- The word that ends at a place, if the text refers to it. -/
def found (s : Scan) : List (List Char) :=
  if s.mode = .code ∧ s.word ≠ [] ∧ s.lead ≠ .bound then [s.word.reverse] else []

/-- What the word that ends at a place leaves for the next one. -/
def leadOn (s : Scan) : Lead :=
  if s.word = [] then s.lead
  else if s.word.reverse = ['c', 'o', 'n', 's', 't'] then .bound
  else .free

/-- The place with the word ended. -/
def settle (s : Scan) : Scan := { s with lead := s.leadOn, word := [] }

/-- The place behind a character of code that belongs to no word. -/
def mark (lead : Lead) (c : Char) : Scan :=
  if c = '"' then { mode := .text }
  else if c = '/' then { mode := .slash }
  else if c = ':' then { lead := if lead = .colon then .bound else .colon }
  else if c = ' ' then { lead := if lead = .bound then .bound else .free }
  else {}

/-- The place behind a character. -/
def step (s : Scan) (c : Char) : Scan :=
  match s.mode with
  | .code => if isWordChar c then { s with word := c :: s.word } else mark s.leadOn c
  | .slash =>
    if c = '/' then { mode := .comment } else if isWordChar c then { word := [c] } else mark .free c
  | .comment => if c = '\n' then {} else { mode := .comment }
  | .text => if c = '"' then {} else if c = '\\' then { mode := .escape } else { mode := .text }
  | .escape => { mode := .text }

/-- The place behind some characters. -/
def after (s : Scan) (text : List Char) : Scan := text.foldl step s

/-- The words that end before one of the characters. -/
def passed : Scan → List Char → List (List Char)
  | _, [] => []
  | s, c :: rest => (if isWordChar c then [] else s.found) ++ passed (s.step c) rest

end Scan

/-- The words that characters refer to. -/
def wordsIn (text : List Char) : List (List Char) :=
  Scan.passed {} text ++ (Scan.after {} text).found

/-- The words that a text refers to. -/
def references (text : String) : List String := (wordsIn text.toList).map String.ofList

example : references "const N: A = B::c(\"D\"); // E" = ["const", "A", "B"] := by decide +kernel

namespace Scan

variable {s : Scan} {c : Char}

theorem after_append (s : Scan) (a b : List Char) : s.after (a ++ b) = (s.after a).after b :=
  List.foldl_append

theorem passed_append (s : Scan) (a b : List Char) :
    s.passed (a ++ b) = s.passed a ++ (s.after a).passed b := by
  induction a generalizing s with
  | nil => rfl
  | cons c rest ih =>
    rw [List.cons_append, passed, passed, ih, List.append_assoc]
    rfl

/-- A character that belongs to no word ends the word before it. -/
theorem step_settle (hs : s.mode = .code) (hc : isWordChar c = false) :
    s.step c = s.settle.step c := by
  have hsettle : s.settle.mode = .code := hs
  simp only [step, hs, hsettle, hc, Bool.false_eq_true, if_false]
  rfl

theorem found_settle (s : Scan) : s.settle.found = [] := if_neg fun h => h.2.1 rfl

theorem passed_settle (hs : s.mode = .code) (hc : isWordChar c = false) (rest : List Char) :
    s.passed (c :: rest) = s.found ++ s.settle.passed (c :: rest) := by
  rw [passed, passed, hc, step_settle hs hc, found_settle]
  rfl

end Scan

/-! ## Pieces of text -/

/-- Whether there are characters and the first is of no word. -/
def opens (text : List Char) : Bool := text.head?.any fun c => !isWordChar c

theorem wordsIn_append_of_ended {a : List Char} (h : Scan.after {} a = {}) (b : List Char) :
    wordsIn (a ++ b) = wordsIn a ++ wordsIn b ∧ Scan.after {} (a ++ b) = Scan.after {} b := by
  have hafter : Scan.after {} (a ++ b) = Scan.after {} b := by rw [Scan.after_append, h]
  have hfound : Scan.found {} = [] := by decide
  refine ⟨?_, hafter⟩
  rw [wordsIn, wordsIn, wordsIn, hafter, Scan.passed_append, h, hfound, List.append_nil,
    List.append_assoc]

theorem wordsIn_append_of_opens {a b : List Char} (h : (Scan.after {} a).settle = {})
    (hb : opens b = true) :
    wordsIn (a ++ b) = wordsIn a ++ wordsIn b ∧ Scan.after {} (a ++ b) = Scan.after {} b := by
  have hcode : (Scan.after {} a).mode = .code := congrArg Scan.mode h
  cases b with
  | nil => cases hb
  | cons c rest =>
    have hc : isWordChar c = false := by simpa [opens] using hb
    have hafter : Scan.after {} (a ++ c :: rest) = Scan.after {} (c :: rest) := by
      rw [Scan.after_append]
      show ((Scan.after {} a).step c).after rest = (Scan.step {} c).after rest
      rw [Scan.step_settle hcode hc, h]
    refine ⟨?_, hafter⟩
    rw [wordsIn, wordsIn, wordsIn, hafter, Scan.passed_append, Scan.passed_settle hcode hc, h]
    simp only [List.append_assoc]

/-- Whether a word has a capital initial and is none of those that are reserved. -/
def isOpen (w : String) : Bool := w.toList.head?.any Char.isUpper && !reserved.contains w

variable {names : List String}

/-- A text ends outside of comments and quoted texts, and refers to these words, up to reserved
ones, those with a small initial, and the given names.  Its last word may still go on. -/
structure Mentions (names : List String) (text : String) (ws : List String) : Prop where
  settled : (Scan.after {} text.toList).settle = {}
  words : ∀ w, isOpen w = true → w ∉ names → (w ∈ references text ↔ w ∈ ws)

/-- A text mentions these words and has ended them all. -/
structure Reads (names : List String) (text : String) (ws : List String) : Prop where
  ended : Scan.after {} text.toList = {}
  words : ∀ w, isOpen w = true → w ∉ names → (w ∈ references text ↔ w ∈ ws)

variable {a b : String} {ws ws' : List String}

theorem Reads.toMentions (h : Reads names a ws) : Mentions names a ws where
  settled := by
    rw [h.ended]
    rfl
  words := h.words

theorem references_append {a b : String}
    (h : wordsIn (a.toList ++ b.toList) = wordsIn a.toList ++ wordsIn b.toList ∧
      Scan.after {} (a.toList ++ b.toList) = Scan.after {} b.toList) :
    references (a ++ b) = references a ++ references b ∧
      Scan.after {} (a ++ b).toList = Scan.after {} b.toList := by
  rw [references, references, references, String.toList_append, h.1, List.map_append]
  exact ⟨rfl, h.2⟩

theorem Reads.append (ha : Reads names a ws) (hb : Reads names b ws') :
    Reads names (a ++ b) (ws ++ ws') := by
  obtain ⟨hwords, hafter⟩ := references_append (wordsIn_append_of_ended ha.ended _)
  refine ⟨hafter.trans hb.ended, fun w hw hn => ?_⟩
  rw [hwords, List.mem_append, List.mem_append, ha.words w hw hn, hb.words w hw hn]

/-- Behind words that have ended. -/
theorem Reads.mentions (ha : Reads names a ws) (hb : Mentions names b ws') :
    Mentions names (a ++ b) (ws ++ ws') := by
  obtain ⟨hwords, hafter⟩ := references_append (wordsIn_append_of_ended ha.ended _)
  refine ⟨by rw [hafter, hb.settled], fun w hw hn => ?_⟩
  rw [hwords, List.mem_append, List.mem_append, ha.words w hw hn, hb.words w hw hn]

theorem Reads.mentions_silent (ha : Reads names a ws) (hb : Mentions names b []) :
    Mentions names (a ++ b) ws := List.append_nil ws ▸ ha.mentions hb

/-- A text that starts with no word ends those before it. -/
theorem Mentions.reads (ha : Mentions names a ws) (hb : Reads names b ws')
    (hopens : opens b.toList = true) :
    Reads names (a ++ b) (ws ++ ws') := by
  obtain ⟨hwords, hafter⟩ := references_append (wordsIn_append_of_opens ha.settled hopens)
  refine ⟨hafter.trans hb.ended, fun w hw hn => ?_⟩
  rw [hwords, List.mem_append, List.mem_append, ha.words w hw hn, hb.words w hw hn]

theorem Mentions.append_opens (ha : Mentions names a ws) (hb : Mentions names b ws')
    (hopens : opens b.toList = true) :
    Mentions names (a ++ b) (ws ++ ws') := by
  obtain ⟨hwords, hafter⟩ := references_append (wordsIn_append_of_opens ha.settled hopens)
  refine ⟨by rw [hafter, hb.settled], fun w hw hn => ?_⟩
  rw [hwords, List.mem_append, List.mem_append, ha.words w hw hn, hb.words w hw hn]

/-! ### Fixed texts

Fixed texts are evaluated, character by character. -/

/-- Whether a word has a small initial or is reserved. -/
def isClosed (w : List Char) : Bool :=
  !(w.head?.any Char.isUpper && !reserved.contains (String.ofList w))

theorem isClosed_eq (w : List Char) : isClosed w = !isOpen (String.ofList w) := by
  rw [isClosed, isOpen, String.toList_ofList]

/-- Whether characters mention no words. -/
def isQuiet (text : List Char) : Bool :=
  decide ((Scan.after {} text).settle = {}) && (wordsIn text).all isClosed

/-- Whether characters mention no words and have ended them all. -/
def isSilent (text : List Char) : Bool :=
  decide (Scan.after {} text = {}) && (wordsIn text).all isClosed

variable {x y : List Char}

theorem not_mem_references_of_closed (h : (wordsIn x).all isClosed = true) {w : String}
    (hw : isOpen w = true) : w ∉ references (String.ofList x) := by
  intro hmem
  rw [references, String.toList_ofList] at hmem
  obtain ⟨chars, hchars, rfl⟩ := List.mem_map.mp hmem
  have hclosed := List.all_eq_true.mp h chars hchars
  rw [isClosed_eq, hw] at hclosed
  cases hclosed

theorem mentions_of_isQuiet (h : isQuiet x = true) : Mentions names (String.ofList x) [] := by
  rw [isQuiet, Bool.and_eq_true, decide_eq_true_eq] at h
  exact ⟨by rw [String.toList_ofList, h.1], fun w hw _ =>
    iff_of_false (not_mem_references_of_closed h.2 hw) List.not_mem_nil⟩

theorem reads_of_isSilent (h : isSilent x = true) : Reads names (String.ofList x) [] := by
  rw [isSilent, Bool.and_eq_true, decide_eq_true_eq] at h
  exact ⟨by rw [String.toList_ofList, h.1], fun w hw _ =>
    iff_of_false (not_mem_references_of_closed h.2 hw) List.not_mem_nil⟩

theorem Reads.literal (h : Scan.after {} x = {} ∧
    ((wordsIn x).filter fun w => !isClosed w).map String.ofList = ws) :
    Reads names (String.ofList x) ws := by
  obtain ⟨hended, rfl⟩ := h
  refine ⟨by rw [String.toList_ofList, hended], fun w hw _ => ?_⟩
  rw [references, String.toList_ofList, List.mem_map, List.mem_map]
  refine exists_congr fun chars => and_congr_left ?_
  rintro rfl
  rw [List.mem_filter, isClosed_eq, hw]
  simp

theorem Mentions.behind (hb : Mentions names b ws) (hx : isSilent x = true) :
    Mentions names (String.ofList x ++ b) ws := (reads_of_isSilent hx).mentions hb

theorem Reads.behind (hb : Reads names b ws) (hx : isSilent x = true) :
    Reads names (String.ofList x ++ b) ws := (reads_of_isSilent hx).append hb

theorem Mentions.before (ha : Mentions names a ws) (hx : opens x = true ∧ isSilent x = true) :
    Reads names (a ++ String.ofList x) ws := by
  have hopens : opens (String.ofList x).toList = true := by rw [String.toList_ofList, hx.1]
  simpa using ha.reads (reads_of_isSilent hx.2) hopens

theorem Reads.before (ha : Reads names a ws) (hx : isSilent x = true) :
    Reads names (a ++ String.ofList x) ws := by
  simpa using ha.append (reads_of_isSilent hx)

theorem Mentions.between (hb : Mentions names b ws) (hx : isSilent x = true)
    (hy : opens y = true ∧ isSilent y = true) :
    Mentions names (String.ofList x ++ b ++ String.ofList y) ws :=
  ((hb.behind hx).before hy).toMentions

theorem Reads.between (hb : Reads names b ws) (hx : isSilent x = true) (hy : isSilent y = true) :
    Reads names (String.ofList x ++ b ++ String.ofList y) ws := (hb.behind hx).before hy

/-! ## Words and paths -/

/-- A word that may be a member of a path. -/
def IsPart (w : String) : Prop := w ≠ "" ∧ w ≠ "const" ∧ ∀ c ∈ w.toList, isWordChar c = true

instance : DecidablePred IsPart := fun w =>
  decidable_of_iff (w ≠ "" ∧ w ≠ "const" ∧ w.toList.all isWordChar = true) (by
    rw [IsPart, List.all_eq_true])

theorem Scan.after_word {s : Scan} (hs : s.mode = .code) {w : List Char}
    (h : ∀ c ∈ w, isWordChar c = true) :
    s.after w = { s with word := w.reverse ++ s.word } ∧ s.passed w = [] := by
  induction w generalizing s with
  | nil => exact ⟨rfl, rfl⟩
  | cons c rest ih =>
    have hstep : s.step c = { s with word := c :: s.word } := by
      simp only [step, hs, h c List.mem_cons_self, if_true]
    obtain ⟨hafter, hpassed⟩ := ih (s := s.step c) (by rw [hstep]; exact hs) fun x hx =>
      h x (List.mem_cons_of_mem _ hx)
    refine ⟨?_, ?_⟩
    · show (s.step c).after rest = _
      rw [hafter, hstep]
      simp
    · rw [passed, h c List.mem_cons_self, hpassed]
      rfl

theorem IsPart.reverse_ne {w : String} (h : IsPart w) :
    w.toList.reverse ≠ [] ∧ w.toList.reverse.reverse ≠ ['c', 'o', 'n', 's', 't'] := by
  refine ⟨fun hnil => h.1 (String.toList_injective ?_), fun hconst =>
    h.2.1 (String.toList_injective ?_)⟩
  · simpa using hnil
  · rwa [List.reverse_reverse] at hconst

theorem IsPart.settle {w : String} (h : IsPart w) (lead : Lead) :
    Scan.settle { lead := lead, word := w.toList.reverse } = {} := by
  obtain ⟨hne, hconst⟩ := h.reverse_ne
  simp only [Scan.settle, Scan.leadOn, if_neg hne, if_neg hconst]

/-- A word mentions itself. -/
theorem IsPart.mentions {w : String} (h : IsPart w) : Mentions names w [w] := by
  obtain ⟨hafter, hpassed⟩ := Scan.after_word (s := {}) rfl h.2.2
  rw [List.append_nil] at hafter
  have hwords : references w = [w] := by
    rw [references, wordsIn, hpassed, hafter]
    simp [Scan.found, h.reverse_ne.1, String.ofList_toList]
  exact ⟨by rw [hafter]; exact h.settle .free, fun x _ _ => by rw [hwords]⟩

/-- A member of a path mentions nothing of its own. -/
theorem IsPart.mentions_member {w : String} (h : IsPart w) : Mentions names ("::" ++ w) [] := by
  obtain ⟨hafter, hpassed⟩ := Scan.after_word (s := { lead := .bound }) rfl h.2.2
  rw [List.append_nil] at hafter
  have hcolons : Scan.after {} "::".toList = { lead := .bound } := by decide
  have hnone : Scan.passed {} "::".toList = [] := by decide
  have hwords : references ("::" ++ w) = [] := by
    rw [references, wordsIn, String.toList_append, Scan.passed_append, Scan.after_append, hcolons,
      hpassed, hafter, hnone]
    simp [Scan.found]
  refine ⟨?_, fun x _ _ => by rw [hwords]⟩
  rw [String.toList_append, Scan.after_append, hcolons, hafter]
  exact h.settle .bound

theorem opens_colons (text : String) : opens ("::" ++ text).toList = true := by
  rw [String.toList_append]
  rfl

/-- Words with double colons between them. -/
inductive IsPath : String → Prop
  | word {w : String} (h : IsPart w) : IsPath w
  | member {path w : String} (h : IsPath path) (hw : IsPart w) : IsPath (path ++ "::" ++ w)

/-- The first word of a path. -/
def pathHead (path : String) : String := String.ofList (path.toList.takeWhile isWordChar)

theorem pathHead_append (a : String) {b : String} (h : opens b.toList = true) :
    pathHead (a ++ b) = pathHead a := by
  have hnone : b.toList.takeWhile isWordChar = [] := by
    unfold opens at h
    cases hb : b.toList with
    | nil => rfl
    | cons c rest =>
      rw [hb] at h
      exact List.takeWhile_cons_of_neg (by simpa using h)
  rw [pathHead, String.toList_append, List.takeWhile_append, hnone, List.append_nil]
  split
  · next hall => rw [pathHead, (List.takeWhile_sublist _).eq_of_length hall]
  · rfl

theorem IsPart.pathHead_eq {w : String} (h : IsPart w) : pathHead w = w := by
  have hall : (w.toList ++ []).takeWhile isWordChar = w.toList ++ [] :=
    List.takeWhile_append_of_pos h.2.2
  rw [List.append_nil] at hall
  rw [pathHead, hall, String.ofList_toList]

/-- A path mentions its first word. -/
theorem IsPath.mentions {path : String} (h : IsPath path) :
    Mentions names path [pathHead path] := by
  induction h with
  | word h =>
    rw [h.pathHead_eq]
    exact h.mentions
  | member h hw ih =>
    rw [String.append_assoc, pathHead_append _ (opens_colons _)]
    exact ih.append_opens hw.mentions_member (opens_colons _)

theorem IsPath.append {a b : String} (ha : IsPath a) (hb : IsPath b) :
    IsPath (a ++ "::" ++ b) := by
  induction hb with
  | word h => exact ha.member h
  | member h hw ih =>
    rw [← String.append_assoc, ← String.append_assoc]
    exact ih.member hw

/-- Something of a module mentions the first word of the module's path. -/
theorem IsPath.mentions_member {path symbol : String} (h : IsPath path) (hs : IsPath symbol) :
    Mentions names (path ++ "::" ++ symbol) [pathHead path] := by
  have hhead : pathHead (path ++ "::" ++ symbol) = pathHead path := by
    rw [String.append_assoc, pathHead_append _ (opens_colons _)]
  exact hhead ▸ (h.append hs).mentions

/-- A path that starts with a reserved word or a small initial mentions nothing. -/
theorem IsPath.mentions_nothing {path : String} (h : IsPath path)
    (hclosed : isOpen (pathHead path) = false) : Mentions names path [] := by
  obtain ⟨hsettled, hwords⟩ : Mentions names path [pathHead path] := h.mentions
  refine ⟨hsettled, fun x hx hn => (hwords x hx hn).trans ?_⟩
  rw [List.mem_singleton]
  refine iff_of_false (fun heq => ?_) List.not_mem_nil
  rw [heq, hclosed] at hx
  cases hx

/-! ## Other pieces -/

theorem isAlpha_of_isUpper {c : Char} (h : c.isUpper = true) : c.isAlpha = true :=
  (Bool.or_eq_true _ _).mpr (.inl h)

theorem isPart_of_isIdentifier {name : String} (h : IsIdentifier name) : IsPart name := by
  obtain ⟨c, rest, hchars, hc, hrest⟩ := h
  refine ⟨?_, ?_, ?_⟩
  · rintro rfl
    cases hchars
  · rintro rfl
    cases hchars
    cases hc
  · intro x hx
    rw [hchars] at hx
    rcases List.mem_cons.mp hx with rfl | hx
    · simp [isWordChar, Char.isAlphanum, isAlpha_of_isUpper hc]
    · simp [isWordChar, hrest x hx]

/-- The name of a codec mentions nothing but itself. -/
theorem mentions_name {name : String} (h : name = "" ∨ IsIdentifier name ∧ name ∈ names) :
    Mentions names name [] := by
  rcases h with rfl | ⟨hid, hmem⟩
  · exact ⟨rfl, fun w _ _ => Iff.rfl⟩
  · obtain ⟨hsettled, hwords⟩ : Mentions names name [name] := (isPart_of_isIdentifier hid).mentions
    refine ⟨hsettled, fun w hw hn => (hwords w hw hn).trans ?_⟩
    rw [List.mem_singleton]
    exact iff_of_false (fun heq => hn (heq ▸ hmem)) List.not_mem_nil

theorem not_isAlpha_of_isDigit {c : Char} (h : c.isDigit = true) : c.isAlpha = false := by
  rw [Bool.eq_false_iff]
  intro halpha
  delta Char.isDigit at h
  delta Char.isAlpha Char.isUpper Char.isLower at halpha
  simp only [Bool.or_eq_true, Bool.and_eq_true, decide_eq_true_eq] at h halpha
  rcases halpha with hupper | hlower
  · exact absurd (UInt32.le_iff_toNat_le.mp (UInt32.le_trans hupper.1 h.2)) (by decide)
  · exact absurd (UInt32.le_iff_toNat_le.mp (UInt32.le_trans hlower.1 h.2)) (by decide)

theorem mentions_number (n : Nat) : Mentions names (toString n) [] := by
  have hchars : (toString n).toList = Nat.toDigits 10 n := by
    rw [Nat.toString_eq_ofList_toDigits, String.toList_ofList]
  have hdigit : ∀ c ∈ Nat.toDigits 10 n, c.isDigit = true := fun c hc =>
    Nat.isDigit_of_mem_toDigits (by decide) (by decide) hc
  obtain ⟨c, rest, hdigits⟩ := List.exists_cons_of_ne_nil (Nat.toDigits_ne_nil (b := 10) (n := n))
  have hc := hdigit c (by rw [hdigits]; exact List.mem_cons_self)
  have hpart : IsPart (toString n) := by
    refine ⟨?_, ?_, ?_⟩
    · intro hempty
      rw [hempty, hdigits] at hchars
      cases hchars
    · intro hconst
      rw [hconst, hdigits] at hchars
      cases hchars
      cases hc
    · intro x hx
      rw [hchars] at hx
      simp [isWordChar, Char.isAlphanum, hdigit x hx]
  have hupper : c.isUpper = false := (Bool.or_eq_false_iff.mp (not_isAlpha_of_isDigit hc)).1
  refine (IsPath.word hpart).mentions_nothing ?_
  rw [hpart.pathHead_eq, isOpen, hchars, hdigits, List.head?_cons, Option.any_some,
    hupper, Bool.false_and]

theorem mentions_bool (b : Bool) : Mentions names (toString b) [] := by
  cases b with
  | false => exact mentions_of_isQuiet (by decide)
  | true => exact mentions_of_isQuiet (by decide)

/-- Characters that end no quoted text and escape nothing. -/
theorem Scan.after_plain {text : List Char} (h : ∀ c ∈ text, c ≠ '"' ∧ c ≠ '\\') :
    after { mode := .text } text = { mode := .text } ∧ passed { mode := .text } text = [] := by
  induction text with
  | nil => exact ⟨rfl, rfl⟩
  | cons c rest ih =>
    obtain ⟨hquote, hslash⟩ := h c List.mem_cons_self
    obtain ⟨hafter, hpassed⟩ := ih fun x hx => h x (List.mem_cons_of_mem _ hx)
    have hstep : step { mode := .text } c = { mode := .text } := by
      simp only [step, if_neg hquote, if_neg hslash]
    refine ⟨?_, ?_⟩
    · show after (step { mode := .text } c) rest = _
      rw [hstep, hafter]
    · rw [passed, hstep, hpassed]
      simp [found]

/-- A character of a quoted text is escaped by a character or by its code, or stands for itself. -/
theorem escape_cases (c : Char) :
    (∃ x, Quoted.escape c = ['\\', x]) ∨ Quoted.escape c = Quoted.codeEscape c ∨
      Quoted.escape c = [c] ∧ c ≠ '"' ∧ c ≠ '\\' := by
  unfold Quoted.escape
  repeat' split
  all_goals simp_all

/-- A character of a quoted text does not end the text, however it is written. -/
theorem Scan.after_escape (c : Char) :
    after { mode := .text } (Quoted.escape c) = { mode := .text } ∧
      passed { mode := .text } (Quoted.escape c) = [] := by
  -- what a backslash stands before is passed over
  have hescaped {x : Char} {rest : List Char} (h : ∀ c ∈ rest, c ≠ '"' ∧ c ≠ '\\') :
      after { mode := .text } ('\\' :: x :: rest) = { mode := .text } ∧
        passed { mode := .text } ('\\' :: x :: rest) = [] := by
    obtain ⟨hafter, hpassed⟩ := after_plain h
    refine ⟨hafter, ?_⟩
    rw [passed, passed]
    show _ ++ (_ ++ passed { mode := .text } rest) = []
    rw [hpassed]
    simp [found, step]
  rcases escape_cases c with ⟨x, hx⟩ | hcode | ⟨hself, hplain⟩
  · rw [hx]
    exact hescaped nofun
  · rw [hcode]
    show after _ ('\\' :: 'u' :: '\x7b' :: (Nat.toDigits 16 c.toNat ++ ['\x7d'])) = _ ∧
      passed _ ('\\' :: 'u' :: '\x7b' :: (Nat.toDigits 16 c.toNat ++ ['\x7d'])) = []
    refine hescaped fun y hy => ?_
    rw [List.mem_cons, List.mem_append, List.mem_singleton] at hy
    rcases hy with rfl | hy | rfl
    · decide
    · have hdigit : Address.isDigitIn 16 y = true :=
        Address.isDigitIn_toDigits (by decide) (by decide) hy
      constructor
      · rintro rfl
        exact absurd hdigit (by decide)
      · rintro rfl
        exact absurd hdigit (by decide)
    · decide
  · rw [hself]
    refine after_plain fun y hy => ?_
    rwa [List.mem_singleton.mp hy]

/-- A quoted text mentions nothing. -/
theorem reads_quoted (text : String) : Reads names (quoted text) [] := by
  have hinside : ∀ chars : List Char,
      Scan.after { mode := .text } (chars.flatMap Quoted.escape) = { mode := .text } ∧
        Scan.passed { mode := .text } (chars.flatMap Quoted.escape) = [] := by
    intro chars
    induction chars with
    | nil => exact ⟨rfl, rfl⟩
    | cons c rest ih =>
      obtain ⟨hafter, hpassed⟩ := Scan.after_escape c
      rw [List.flatMap_cons, Scan.after_append, Scan.passed_append, hafter, hpassed]
      exact ih
  obtain ⟨hafter, hpassed⟩ := hinside text.toList
  have hended : Scan.after {} (quoted text).toList = {} := by
    rw [quoted, String.toList_ofList]
    show Scan.after { mode := .text } (_ ++ ['"']) = {}
    rw [Scan.after_append, hafter]
    rfl
  have hnone : references (quoted text) = [] := by
    rw [references, wordsIn, hended, quoted, String.toList_ofList]
    show ((_ ++ Scan.passed { mode := .text } (_ ++ ['"'])) ++ _).map _ = []
    rw [Scan.passed_append, hafter, hpassed]
    decide
  exact ⟨hended, fun w _ _ => by rw [hnone]⟩

/-- Pieces that mention nothing, with such a text between them. -/
theorem reads_intercalate (hsep : isSilent x = true) {pieces : List String}
    (h : ∀ p ∈ pieces, Reads names p []) :
    Reads names (String.intercalate (String.ofList x) pieces) [] := by
  induction pieces with
  | nil => exact reads_of_isSilent (x := []) rfl
  | cons p rest ih =>
    have hp := h p List.mem_cons_self
    cases rest with
    | nil => simpa using hp
    | cons q rest =>
      rw [String.intercalate_cons_cons]
      exact (hp.before hsep).append (ih fun x hx => h x (List.mem_cons_of_mem _ hx))

theorem Scan.after_comment {text : List Char} (h : '\n' ∉ text) :
    after { mode := .comment } text = { mode := .comment } ∧
      passed { mode := .comment } text = [] := by
  induction text with
  | nil => exact ⟨rfl, rfl⟩
  | cons c rest ih =>
    obtain ⟨hafter, hpassed⟩ := ih fun hmem => h (List.mem_cons_of_mem _ hmem)
    have hstep : step { mode := .comment } c = { mode := .comment } :=
      if_neg fun (heq : c = '\n') => h (heq ▸ List.mem_cons_self)
    refine ⟨?_, ?_⟩
    · show after (step { mode := .comment } c) rest = _
      rw [hstep, hafter]
    · rw [passed, hstep, hpassed]
      simp [found]

/-! ## Lines -/

/-- Every line ends outside of comments and quoted texts, and together they refer to these words, up
to reserved ones, those with a small initial, and the given names. -/
structure LinesMention (names : List String) (lines : Lines) (ws : List String) : Prop where
  ended : ∀ l ∈ lines, Scan.after {} (l ++ "\n").toList = {}
  words : ∀ w, isOpen w = true → w ∉ names →
    ((∃ l ∈ lines, w ∈ references (l ++ "\n")) ↔ w ∈ ws)

variable {l : String} {lines lines' : Lines}

theorem linesMention_singleton (h : Reads names (l ++ "\n") ws) : LinesMention names [l] ws where
  ended := by simpa using h.ended
  words w hw hn := by simpa using h.words w hw hn

theorem Mentions.line (h : Mentions names l ws) : LinesMention names [l] ws :=
  linesMention_singleton (h.before (by decide))

theorem Reads.line (h : Reads names l ws) : LinesMention names [l] ws := h.toMentions.line

/-- A comment mentions nothing. -/
theorem linesMention_comment (hl : l.toList.take 2 = ['/', '/']) (h : '\n' ∉ l.toList) :
    LinesMention names [l] [] := by
  obtain ⟨hafter, hpassed⟩ := Scan.after_comment fun hmem => h (List.mem_of_mem_drop (i := 2) hmem)
  have hchars : (l ++ "\n").toList = ['/', '/'] ++ (l.toList.drop 2 ++ ['\n']) := by
    rw [String.toList_append, ← hl, ← List.append_assoc, List.take_append_drop]
    rfl
  have hslashes : Scan.after {} ['/', '/'] = { mode := .comment } := by decide
  have hended : Scan.after {} (l ++ "\n").toList = {} := by
    rw [hchars, Scan.after_append, Scan.after_append, hslashes, hafter]
    decide
  have hnone : references (l ++ "\n") = [] := by
    rw [references, wordsIn, hended, hchars, Scan.passed_append, Scan.passed_append, hslashes,
      hpassed, hafter]
    decide
  exact linesMention_singleton ⟨hended, fun w _ _ => by rw [hnone]⟩

theorem linesMention_note (hx : x.take 2 = ['/', '/'] ∧ '\n' ∉ x) :
    LinesMention names [String.ofList x] [] := by
  refine linesMention_comment ?_ ?_
  · rw [String.toList_ofList, hx.1]
  · rw [String.toList_ofList]
    exact hx.2

namespace LinesMention

theorem nil : LinesMention names [] [] := ⟨nofun, fun w _ _ => by simp⟩

theorem append (h : LinesMention names lines ws) (h' : LinesMention names lines' ws') :
    LinesMention names (lines ++ lines') (ws ++ ws') := by
  refine ⟨fun l hl => ?_, fun w hw hn => ?_⟩
  · rcases List.mem_append.mp hl with hl | hl
    · exact h.ended l hl
    · exact h'.ended l hl
  · rw [List.mem_append, ← h.words w hw hn, ← h'.words w hw hn]
    simp only [List.mem_append, or_and_right, exists_or]

/-- Lines that mention nothing come first. -/
theorem behind (h : LinesMention names lines []) (h' : LinesMention names lines' ws) :
    LinesMention names (lines ++ lines') ws := h.append h'

theorem cons (h : Mentions names l []) (h' : LinesMention names lines ws) :
    LinesMention names (l :: lines) ws := h.line.behind h'

theorem congr (h : LinesMention names lines ws) (heq : ∀ w, w ∈ ws ↔ w ∈ ws') :
    LinesMention names lines ws' :=
  ⟨h.ended, fun w hw hn => (h.words w hw hn).trans (heq w)⟩

/-- Lines that mention nothing come last. -/
theorem before (h : LinesMention names lines ws) (h' : LinesMention names lines' []) :
    LinesMention names (lines ++ lines') ws := (h.append h').congr fun w => by simp

theorem flatMap {α : Type} {xs : List α} {f : α → Lines} {g : α → List String}
    (h : ∀ x ∈ xs, LinesMention names (f x) (g x)) :
    LinesMention names (xs.flatMap f) (xs.flatMap g) := by
  induction xs with
  | nil => exact nil
  | cons x rest ih =>
    rw [List.flatMap_cons, List.flatMap_cons]
    exact (h x List.mem_cons_self).append (ih fun y hy => h y (List.mem_cons_of_mem _ hy))

theorem map {α : Type} {xs : List α} {f : α → String} {g : α → List String}
    (h : ∀ x ∈ xs, Mentions names (f x) (g x)) :
    LinesMention names (xs.map f) (xs.flatMap g) := by
  rw [List.map_eq_flatMap]
  exact flatMap fun x hx => (h x hx).line

/-- Lines of which none mentions anything. -/
theorem of_silent (h : ∀ l ∈ lines, Mentions names l []) : LinesMention names lines [] := by
  have hmap := map (f := fun l => l) (g := fun _ => []) h
  rw [List.map_id'] at hmap
  exact hmap.congr fun w => by simp

/-- Blanks before a line mention nothing. -/
theorem indent (h : LinesMention names lines ws) : LinesMention names (indent lines) ws := by
  have hblanks {l : String} (hl : Scan.after {} (l ++ "\n").toList = {}) :
      references ((if l.isEmpty then l else "    " ++ l) ++ "\n") = references (l ++ "\n") ∧
        Scan.after {} ((if l.isEmpty then l else "    " ++ l) ++ "\n").toList = {} := by
    split
    · exact ⟨rfl, hl⟩
    · have hfour : Scan.after {} "    ".toList = {} := by decide
      obtain ⟨hwords, hafter⟩ :=
        references_append (wordsIn_append_of_ended hfour (l ++ "\n").toList)
      rw [String.append_assoc]
      exact ⟨hwords, hafter.trans hl⟩
  refine ⟨fun l hl => ?_, fun w hw hn => ?_⟩
  · obtain ⟨x, hx, rfl⟩ := List.mem_map.mp hl
    exact (hblanks (h.ended x hx)).2
  · rw [← h.words w hw hn, Emit.indent]
    simp only [List.mem_map, exists_exists_and_eq_and]
    refine exists_congr fun x => and_congr_right fun hx => ?_
    rw [(hblanks (h.ended x hx)).1]

theorem block {head : String} (hhead : Mentions names head ws) (h : LinesMention names lines ws') :
    LinesMention names (block head lines) (ws ++ ws') :=
  ((hhead.before (by decide)).line.append h.indent).before
    (mentions_of_isQuiet (by decide)).line

/-- A block whose head mentions nothing. -/
theorem within {head : String} (hhead : Mentions names head []) (h : LinesMention names lines ws) :
    LinesMention names (Emit.block head lines) ws := block hhead h

/-- The text of lines that end outside of comments and quoted texts refers to what they refer to. -/
theorem references_unlines (h : ∀ l ∈ lines, Scan.after {} (l ++ "\n").toList = {}) :
    Scan.after {} (unlines lines).toList = {} ∧
      references (unlines lines) = lines.flatMap fun l => references (l ++ "\n") := by
  induction lines with
  | nil => exact ⟨by decide, by decide⟩
  | cons l rest ih =>
    obtain ⟨hended, hwords⟩ := ih fun x hx => h x (List.mem_cons_of_mem _ hx)
    obtain ⟨happend, hafter⟩ :=
      references_append (wordsIn_append_of_ended (h l List.mem_cons_self) (unlines rest).toList)
    have hcons : unlines (l :: rest) = l ++ "\n" ++ unlines rest := String.join_cons
    rw [hcons, hafter, happend, hwords, List.flatMap_cons]
    exact ⟨hended, rfl⟩

theorem unlines (h : LinesMention names lines ws) : Reads names (unlines lines) ws := by
  obtain ⟨hended, hwords⟩ := references_unlines h.ended
  refine ⟨hended, fun w hw hn => ?_⟩
  rw [hwords, List.mem_flatMap, h.words w hw hn]

end LinesMention

end Emit

end WireSchema
