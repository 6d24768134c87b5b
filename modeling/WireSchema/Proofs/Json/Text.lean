import Mathlib.Data.List.Forall2
import WireSchema.Json.Document
import WireSchema.Json.Printer
import WireSchema.Proofs.Basic

/-!
# Texts of JSON values

A text of a value may have blanks wherever the grammar allows them (`Json.Text`).  The compact and
the indented text of a value in which no double occurs are such texts (`text_chars`,
`text_indented`).
-/

namespace WireSchema

namespace Document

/-- Nothing but blanks. -/
def Blanks (text : List Char) : Prop := ∀ c ∈ text, isBlank c = true

theorem blanks_nil : Blanks [] := nofun

end Document

namespace Json

mutual

/-- No double occurs, negative numbers are negative, and the members of objects stand in the
order of their names, as a table keeps them. -/
def Plain : Json → Prop
  | .number (.float _) => False
  | .number (.negative n) => n.toInt < 0
  | .array items => PlainItems items
  | .object members => Assoc.Sorted members ∧ PlainMembers members
  | _ => True

/-- Every item is plain. -/
def PlainItems : List Json → Prop
  | [] => True
  | j :: rest => j.Plain ∧ PlainItems rest

/-- Every member is plain. -/
def PlainMembers : List (String × Json) → Prop
  | [] => True
  | (_, j) :: rest => j.Plain ∧ PlainMembers rest

end

mutual

/-- No double occurs, and negative numbers are negative. -/
def Whole : Json → Prop
  | .number (.float _) => False
  | .number (.negative n) => n.toInt < 0
  | .array items => WholeItems items
  | .object members => WholeMembers members
  | _ => True

/-- Every item is whole. -/
def WholeItems : List Json → Prop
  | [] => True
  | j :: rest => j.Whole ∧ WholeItems rest

/-- Every member is whole. -/
def WholeMembers : List (String × Json) → Prop
  | [] => True
  | (_, j) :: rest => j.Whole ∧ WholeMembers rest

end

mutual

theorem Plain.whole {j : Json} (h : j.Plain) : j.Whole := by
  match j with
  | .null | .bool _ | .string _ => trivial
  | .number (.natural _) => trivial
  | .number (.negative _) => exact h
  | .number (.float _) => exact h
  | .array items => exact PlainItems.whole h
  | .object members =>
    obtain ⟨-, hmembers⟩ : Assoc.Sorted members ∧ PlainMembers members := h
    exact PlainMembers.whole hmembers

theorem PlainItems.whole {items : List Json} (h : PlainItems items) : WholeItems items := by
  match items with
  | [] => trivial
  | _ :: _ => exact ⟨Plain.whole h.1, PlainItems.whole h.2⟩

theorem PlainMembers.whole {members : List (String × Json)} (h : PlainMembers members) :
    WholeMembers members := by
  match members with
  | [] => trivial
  | (_, _) :: _ => exact ⟨Plain.whole h.1, PlainMembers.whole h.2⟩

end

open Document (Blanks)

mutual

/-- A text of a value.  Blanks may stand before items and members, behind colons and before closing
brackets. -/
inductive Text : Json → List Char → Prop
  | null : Text .null ['n', 'u', 'l', 'l']
  | true : Text (.bool true) ['t', 'r', 'u', 'e']
  | false : Text (.bool false) ['f', 'a', 'l', 's', 'e']
  | natural (n : UInt64) : Text (.number (.natural n)) (natChars n.toNat)
  | negative (n : Int64) (h : n.toInt < 0) :
      Text (.number (.negative n)) ('-' :: natChars n.toInt.natAbs)
  | string (s : String) : Text (.string s) (stringChars s)
  | emptyArray : Text (.array []) ['[', ']']
  | array {items : List Json} {inner : List Char} (h : ItemsText items inner) :
      Text (.array items) ('[' :: (inner ++ [']']))
  | emptyObject : Text (.object []) ['\x7b', '\x7d']
  | object {members : List (String × Json)} {inner : List Char} (h : MembersText members inner) :
      Text (.object members) ('\x7b' :: (inner ++ ['\x7d']))

/-- The text of one item or more, between the brackets. -/
inductive ItemsText : List Json → List Char → Prop
  | last {j : Json} {before text after : List Char} (hb : Blanks before) (h : Text j text)
      (ha : Blanks after) : ItemsText [j] (before ++ (text ++ after))
  | more {j : Json} {items : List Json} {before text inner : List Char} (hb : Blanks before)
      (h : Text j text) (hrest : ItemsText items inner) :
      ItemsText (j :: items) (before ++ (text ++ ',' :: inner))

/-- The text of one member or more, between the braces. -/
inductive MembersText : List (String × Json) → List Char → Prop
  | last {name : String} {j : Json} {before gap text after : List Char} (hb : Blanks before)
      (hg : Blanks gap) (h : Text j text) (ha : Blanks after) :
      MembersText [(name, j)] (before ++ (stringChars name ++ ':' :: (gap ++ (text ++ after))))
  | more {name : String} {j : Json} {members : List (String × Json)}
      {before gap text inner : List Char} (hb : Blanks before) (hg : Blanks gap) (h : Text j text)
      (hrest : MembersText members inner) :
      MembersText ((name, j) :: members)
        (before ++ (stringChars name ++ ':' :: (gap ++ (text ++ ',' :: inner))))

end

/-! ## Compact and indented texts -/

theorem blanks_newline (depth : Nat) : Blanks (newline depth) := by
  intro c hc
  rcases List.mem_cons.mp hc with rfl | hc
  · rfl
  · rw [List.eq_of_mem_replicate hc]
    rfl

theorem text_number {n : JsonNumber} (h : (Json.number n).Whole) :
    (Json.number n).Text n.chars := by
  match n with
  | .natural n => exact .natural n
  | .negative n =>
    have hneg : n.toInt < 0 := h
    rw [JsonNumber.chars, intChars, if_pos hneg]
    exact .negative n hneg
  | .float _ => exact h.elim

/-- A text of a member with the given blanks behind the colon. -/
def MemberText (gap : List Char) (m : String × Json) (piece : List Char) : Prop :=
  ∃ text, m.2.Text text ∧ piece = stringChars m.1 ++ ':' :: (gap ++ text)

section Pieces

variable {before gap after : List Char} (hb : Blanks before) (hg : Blanks gap) (ha : Blanks after)

include hb ha

/-- Items with the same blanks before each of them. -/
theorem itemsText_of_pieces {items : List Json} {pieces : List (List Char)}
    (h : List.Forall₂ Text items pieces) (hne : items ≠ []) :
    ItemsText items (commaSeparated (pieces.map (before ++ ·)) ++ after) := by
  induction h with
  | nil => exact absurd rfl hne
  | @cons j text items pieces hj hrest ih =>
    cases hrest with
    | nil =>
      have hlast := ItemsText.last hb hj ha
      rwa [← List.append_assoc] at hlast
    | @cons k piece items pieces _ _ =>
      have hmore := ItemsText.more hb hj (ih (List.cons_ne_nil _ _))
      simpa [commaSeparated] using hmore

include hg

/-- Members with the same blanks before each of them and behind each colon. -/
theorem membersText_of_pieces {members : List (String × Json)} {pieces : List (List Char)}
    (h : List.Forall₂ (MemberText gap) members pieces) (hne : members ≠ []) :
    MembersText members (commaSeparated (pieces.map (before ++ ·)) ++ after) := by
  induction h with
  | nil => exact absurd rfl hne
  | @cons m piece members pieces hm hrest ih =>
    obtain ⟨name, j⟩ := m
    obtain ⟨text, hj, rfl⟩ := hm
    cases hrest with
    | nil =>
      have hlast : MembersText [(name, j)] _ := .last hb hg hj ha
      simpa [commaSeparated] using hlast
    | @cons k piece members pieces _ _ =>
      have hmore : MembersText ((name, j) :: k :: members) _ :=
        .more hb hg hj (ih (List.cons_ne_nil _ _))
      simpa [commaSeparated] using hmore

end Pieces

theorem text_array_compact {items : List Json} {pieces : List (List Char)}
    (h : List.Forall₂ Text items pieces) :
    (Json.array items).Text ('[' :: (commaSeparated pieces ++ [']'])) := by
  cases h with
  | nil => exact .emptyArray
  | @cons j piece items pieces hj hrest =>
    have hcompact := itemsText_of_pieces Document.blanks_nil Document.blanks_nil
      (.cons hj hrest) (List.cons_ne_nil _ _)
    simpa using Text.array hcompact

theorem text_array_indented {items : List Json} {pieces : List (List Char)}
    (h : List.Forall₂ Text items pieces) (depth : Nat) :
    (Json.array items).Text (block '[' ']' depth pieces) := by
  cases h with
  | nil => exact .emptyArray
  | @cons j piece items pieces hj hrest =>
    exact Text.array (itemsText_of_pieces (blanks_newline (depth + 1)) (blanks_newline depth)
      (.cons hj hrest) (List.cons_ne_nil _ _))

theorem text_object_compact {members : List (String × Json)} {pieces : List (List Char)}
    (h : List.Forall₂ (MemberText []) members pieces) :
    (Json.object members).Text ('\x7b' :: (commaSeparated pieces ++ ['\x7d'])) := by
  cases h with
  | nil => exact .emptyObject
  | @cons m piece members pieces hm hrest =>
    have hcompact := membersText_of_pieces Document.blanks_nil Document.blanks_nil
      Document.blanks_nil (.cons hm hrest) (List.cons_ne_nil _ _)
    simpa using Text.object hcompact

theorem text_object_indented {members : List (String × Json)} {pieces : List (List Char)}
    (h : List.Forall₂ (MemberText [' ']) members pieces) (depth : Nat) :
    (Json.object members).Text (block '\x7b' '\x7d' depth pieces) := by
  cases h with
  | nil => exact .emptyObject
  | @cons m piece members pieces hm hrest =>
    have hgap : Blanks [' '] := by simp [Blanks, Document.isBlank]
    exact Text.object (membersText_of_pieces (blanks_newline (depth + 1)) hgap
      (blanks_newline depth) (.cons hm hrest) (List.cons_ne_nil _ _))

mutual

/-- The compact text of a whole value is a text of it. -/
theorem text_chars (j : Json) (h : j.Whole) : j.Text j.chars := by
  match j with
  | .null => exact .null
  | .bool true => exact .true
  | .bool false => exact .false
  | .number n => exact text_number h
  | .string s => exact .string s
  | .array items => exact text_array_compact (text_charsItems items h)
  | .object members => exact text_object_compact (text_charsMembers members h)

theorem text_charsItems (items : List Json) (h : WholeItems items) :
    List.Forall₂ Text items (charsItems items) := by
  match items with
  | [] => exact .nil
  | j :: items => exact .cons (text_chars j h.1) (text_charsItems items h.2)

theorem text_charsMembers (members : List (String × Json)) (h : WholeMembers members) :
    List.Forall₂ (MemberText []) members (charsMembers members) := by
  match members with
  | [] => exact .nil
  | (_, j) :: members => exact .cons ⟨_, text_chars j h.1, rfl⟩ (text_charsMembers members h.2)

end

mutual

/-- The indented text of a whole value is a text of it. -/
theorem text_indented (depth : Nat) (j : Json) (h : j.Whole) :
    j.Text (indentedChars depth j) := by
  match j with
  | .null => exact .null
  | .bool true => exact .true
  | .bool false => exact .false
  | .number n => exact text_number h
  | .string s => exact .string s
  | .array items => exact text_array_indented (text_indentedItems (depth + 1) items h) depth
  | .object members => exact text_object_indented (text_indentedMembers (depth + 1) members h) depth

theorem text_indentedItems (depth : Nat) (items : List Json) (h : WholeItems items) :
    List.Forall₂ Text items (indentedItems depth items) := by
  match items with
  | [] => exact .nil
  | j :: items => exact .cons (text_indented depth j h.1) (text_indentedItems depth items h.2)

theorem text_indentedMembers (depth : Nat) (members : List (String × Json))
    (h : WholeMembers members) :
    List.Forall₂ (MemberText [' ']) members (indentedMembers depth members) := by
  match members with
  | [] => exact .nil
  | (_, j) :: members =>
    exact .cons ⟨_, text_indented depth j h.1, rfl⟩ (text_indentedMembers depth members h.2)

end

end Json

end WireSchema
