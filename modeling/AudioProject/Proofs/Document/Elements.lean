import AudioProject.Document.Printing
import AudioProject.Document.Reading
import AudioProject.Proofs.Markup.Scanning

/-
  Reading written elements. The text is cut where a tag ends: a piece of it is character data and
  one tag, and `Reads` says what reading such a piece makes of the state. Pieces compose, so an
  element that holds text is two of them, and an element that holds others is two around theirs:
  `reads_leaf`, `reads_branch`.
-/

namespace AudioProject.Document

open Markup Text

/-! ## The written form as characters -/

/-- What stands in front of a tag that is `depth` elements deep. -/
def indent (depth : Nat) : List Char := '\n' :: List.replicate depth '\t'

def startTag (name : List Char) (as : List (List Char × List Char)) : List Char :=
  '<' :: (name ++ attributesChars as) ++ ['>']

def endTag (name : List Char) : List Char := '<' :: '/' :: name ++ ['>']

theorem toList_attributeText (key value : String) :
    (attributeText key value).toList = attributesChars [(key.toList, value.toList)] := by
  simp [attributeText, escapeString, attributesChars, attributeChars]

theorem toList_line (depth : Nat) (text : String) :
    (line depth text).toList = indent depth ++ text.toList := by
  simp [line, indent]

theorem toList_leaf (depth : Nat) (name text : String) :
    (leaf depth name text).toList =
      (indent depth ++ startTag name.toList []) ++ (escape text.toList ++ endTag name.toList) := by
  simp [leaf, toList_line, startTag, endTag, escapeString, attributesChars]

theorem toList_branch (depth : Nat) (name attributes : String)
    {as : List (List Char × List Char)} (h : attributes.toList = attributesChars as)
    (content : List String) :
    (branch depth name attributes content).toList =
      (indent depth ++ startTag name.toList as) ++ content.flatMap String.toList ++
        (indent depth ++ endTag name.toList) := by
  simp [branch, toList_line, startTag, endTag, h, String.toList_join]

theorem indent_no_tag (depth : Nat) : '<' ∉ indent depth := by
  simp [indent]

/-! ## Reading piece by piece -/

/-- Reads `cs`, which begins at byte `position`, inside the elements named by `opened`. -/
def readOn (r : Reading) (opened : List (List Char)) (position : Nat) (cs : List Char) :
    Except Error Reading :=
  r.run (eventsFrom opened (lexFrom (.data []) position position cs))

/-- Reading `piece` leads from one state to the other, whatever comes behind it. -/
def Reads (piece : List Char) (opened opened' : List (List Char)) (r r' : Reading) : Prop :=
  ∀ position cs, readOn r opened position (piece ++ cs) =
    readOn r' opened' (position + byteLength piece) cs

theorem Reads.nil (opened : List (List Char)) (r : Reading) : Reads [] opened opened r r :=
  fun _ _ => rfl

theorem Reads.append {xs ys : List Char} {o₁ o₂ o₃ : List (List Char)} {r₁ r₂ r₃ : Reading}
    (h₁ : Reads xs o₁ o₂ r₁ r₂) (h₂ : Reads ys o₂ o₃ r₂ r₃) : Reads (xs ++ ys) o₁ o₃ r₁ r₃ := by
  intro position cs
  rw [List.append_assoc, h₁, h₂, byteLength_append, Nat.add_assoc]

/-- Pieces that lead from state to state by `next`, read in a row. -/
theorem Reads.flatMap {α σ : Type} {piece : α → List Char} (state : σ → Reading)
    {next : σ → α → σ} {opened : List (List Char)}
    (h : ∀ s x, Reads (piece x) opened opened (state s) (state (next s x))) (xs : List α) (s : σ) :
    Reads (xs.flatMap piece) opened opened (state s) (state (xs.foldl next s)) := by
  induction xs generalizing s with
  | nil => exact Reads.nil _ _
  | cons x xs ih =>
    rw [List.flatMap_cons]
    exact (h s x).append (ih (next s x))

namespace Reading

theorem addText_nil (r : Reading) : r.addText [] = .ok r := by
  unfold addText
  split
  · rfl
  · simp [show unescape [] = .ok [] from rfl]

theorem addText_ignored {r : Reading} (h : r.slot = .ignored) (raw : List Char) :
    r.addText raw = .ok r := by
  unfold addText
  rw [if_pos h]

theorem addText_escape {r : Reading} (h : r.slot ≠ .ignored) (cs : List Char) :
    r.addText (escape cs) = .ok { r with text := r.text ++ cs } := by
  unfold addText
  rw [if_neg h, unescape_escape]

end Reading

/-- Character data in front of a tag. -/
theorem readOn_data {raw : List Char} (hraw : '<' ∉ raw) {r r' : Reading}
    (h : r.addText raw = .ok r') (opened : List (List Char)) (position : Nat) (cs : List Char) :
    readOn r opened position (raw ++ '<' :: cs) =
      readOn r' opened (position + byteLength raw) ('<' :: cs) := by
  unfold readOn
  rw [lexFrom_data raw hraw]
  by_cases hempty : raw = []
  · subst hempty
    rw [Reading.addText_nil] at h
    cases h
    rfl
  · rw [if_neg hempty, List.singleton_append, eventsFrom, Reading.run,
      show r.step (position, .text raw) = r.addText raw from rfl, h]

theorem reads_start {raw : List Char} (hraw : '<' ∉ raw) {r r₁ r' : Reading}
    (hdata : r.addText raw = .ok r₁) {name : List Char} (hname : IsWord name)
    {as : List (List Char × List Char)} (hword : ∀ a ∈ as, IsWord a.1)
    (hnodup : (as.map Prod.fst).Nodup)
    (hopen : ∀ position, r₁.openTag (writtenTag name as) false position = .ok r')
    (opened : List (List Char)) :
    Reads (raw ++ startTag name as) opened (name :: opened) r r' := by
  intro position cs
  have hcontent := isTagContent_written hname hword
  have hpiece : raw ++ startTag name as ++ cs =
      raw ++ '<' :: (name ++ attributesChars as ++ '>' :: cs) := by
    simp [startTag]
  rw [hpiece, readOn_data hraw hdata, byteLength_append, ← Nat.add_assoc]
  unfold readOn startTag
  rw [← List.cons_append, lexFrom_tag hcontent, eventsFrom,
    if_neg (getLast?_written hname as), ofContent_written hname hword hnodup]
  dsimp only
  rw [Reading.run, show r₁.step (_, .start (writtenTag name as)) =
    r₁.openTag (writtenTag name as) false _ from rfl, hopen]
  rfl

theorem reads_end {raw : List Char} (hraw : '<' ∉ raw) {r r₁ r' : Reading}
    (hdata : r.addText raw = .ok r₁) {name : List Char} (hname : IsWord name)
    (hclose : ∀ position, r₁.closeTag name position = .ok r') (opened : List (List Char)) :
    Reads (raw ++ endTag name) (name :: opened) opened r r' := by
  intro position cs
  have hpiece : raw ++ endTag name ++ cs = raw ++ '<' :: ('/' :: name ++ '>' :: cs) := by
    simp [endTag]
  have hname' : closingName name = name := closingName_word hname
  rw [hpiece, readOn_data hraw hdata, byteLength_append, ← Nat.add_assoc]
  unfold readOn endTag
  rw [← List.cons_append, lexFrom_close (hname.not_mem rfl), eventsFrom, hname',
    if_pos rfl, Reading.run, show r₁.step (_, .finish name) = r₁.closeTag name _ from rfl,
    hclose]

/-! ## Elements -/

section Elements

variable {name : String} (hname : IsWord name.toList) {opened : List (List Char)}
include hname

/-- An element that holds text: it opens a slot, and closes with the text in it. -/
theorem reads_leaf (depth : Nat) (text : String) (r₁ : Reading) {r r' : Reading}
    (hslot : r.slot = .ignored) (hslot₁ : r₁.slot ≠ .ignored)
    (hopen : ∀ position, r.openTag (writtenTag name.toList []) false position = .ok r₁)
    (hclose : ∀ position, Reading.closeTag { r₁ with text := r₁.text ++ text.toList } name.toList
      position = .ok r') :
    Reads (leaf depth name text).toList opened opened r r' := by
  rw [toList_leaf]
  have hstart :
      Reads (indent depth ++ startTag name.toList []) opened (name.toList :: opened) r r₁ :=
    reads_start (indent_no_tag depth) (Reading.addText_ignored hslot _) hname (by simp) (by simp)
      hopen opened
  have hend :
      Reads (escape text.toList ++ endTag name.toList) (name.toList :: opened) opened r₁ r' :=
    reads_end (not_mem_escape (Or.inl rfl) _) (Reading.addText_escape hslot₁ _) hname hclose opened
  exact hstart.append hend

/-- An element that holds others. -/
theorem reads_branch (depth : Nat) (r₁ r₂ : Reading) {attributes : String}
    {as : List (List Char × List Char)}
    (has : attributes.toList = attributesChars as) (hword : ∀ a ∈ as, IsWord a.1)
    (hnodup : (as.map Prod.fst).Nodup) {content : List String} {r r' : Reading}
    (hslot : r.slot = .ignored) (hslot₂ : r₂.slot = .ignored)
    (hopen : ∀ position, r.openTag (writtenTag name.toList as) false position = .ok r₁)
    (hcontent : Reads (content.flatMap String.toList) (name.toList :: opened)
      (name.toList :: opened) r₁ r₂)
    (hclose : ∀ position, r₂.closeTag name.toList position = .ok r') :
    Reads (branch depth name attributes content).toList opened opened r r' := by
  rw [toList_branch depth name attributes has]
  refine (Reads.append ?_ hcontent).append ?_
  · exact reads_start (indent_no_tag depth) (Reading.addText_ignored hslot _) hname hword hnodup
      hopen opened
  · exact reads_end (indent_no_tag depth) (Reading.addText_ignored hslot₂ _) hname hclose opened

end Elements

theorem required_written (name : List Char) {as : List (List Char × List Char)}
    (hnodup : (as.map Prod.fst).Nodup) {key value : String}
    (hmem : (key.toList, value.toList) ∈ as) (position : Nat) :
    Reading.required (writtenTag name as) key position = .ok value := by
  unfold Reading.required
  rw [value?_written name hnodup hmem]
  simp

end AudioProject.Document
