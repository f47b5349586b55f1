import Mathlib.Data.List.Basic

/-!
# Words can be read off a page

A text in lines has a line feed behind each of them, so that the lines can be
read again (`readLines_join`).  A page is a text in lines of words: one blank
stands between the words of a line.  As neither stands inside a word, the lines
and their words can be read again (`readPage_page`), so that different lines
make different pages (`page_inj`).
-/

namespace StackFlow

/-- A text without blanks and line feeds. -/
def IsWord (s : String) : Prop := ∀ c ∈ s.toList, c ≠ ' ' ∧ c ≠ '\n'

instance (s : String) : Decidable (IsWord s) :=
  decidable_of_iff (s.toList.all fun c ↦ c ≠ ' ' && c ≠ '\n') (by simp [IsWord])

def OneLine (s : String) : Prop := '\n' ∉ s.toList

instance (s : String) : Decidable (OneLine s) := inferInstanceAs (Decidable (¬ _))

/-- A line has at least one word. -/
def IsLine (words : List String) : Prop := words ≠ [] ∧ ∀ w ∈ words, IsWord w

/-- Lines of words. -/
def page (lines : List (List String)) : String :=
  String.join (lines.map fun words ↦ " ".intercalate words ++ "\n")

/-- The lines of a text. -/
def readLines (s : String) : List String := (s.toList.splitOn '\n').dropLast.map String.ofList

/-- The lines of a text, as the characters of their words. -/
def readPage (s : String) : List (List (List Char)) :=
  (s.toList.splitOn '\n').dropLast.map (·.splitOn ' ')

variable {s t : String} {words : List String} {lines lines' : List (List String)}

theorem IsWord.append (hs : IsWord s) (ht : IsWord t) : IsWord (s ++ t) := by
  intro c hc
  rw [String.toList_append] at hc
  rcases List.mem_append.mp hc with hc | hc
  · exact hs c hc
  · exact ht c hc

theorem isWord_of_isAlphanum (h : ∀ c ∈ s.toList, c.isAlphanum = true) : IsWord s := by
  intro c hc
  constructor
  · rintro rfl
    exact absurd (h _ hc) (by decide)
  · rintro rfl
    exact absurd (h _ hc) (by decide)

theorem OneLine.append (hs : OneLine s) (ht : OneLine t) : OneLine (s ++ t) := by
  rw [OneLine, String.toList_append, List.mem_append, not_or]
  exact ⟨hs, ht⟩

theorem OneLine.ofList {cs : List Char} (h : '\n' ∉ cs) : OneLine (String.ofList cs) := by
  rwa [OneLine, String.toList_ofList]

theorem IsWord.oneLine (h : IsWord s) : OneLine s := fun feed ↦ (h _ feed).2 rfl

theorem intercalate_cons (w : String) (words : List String) :
    " ".intercalate (w :: words) = w ++ String.join (words.map (" " ++ ·)) := by
  induction words generalizing w with
  | nil => simp
  | cons w' words ih => simp [String.intercalate_cons_cons, ih, String.append_assoc]

theorem mem_intercalate {sep : List Char} {ls : List (List Char)} {c : Char}
    (h : c ∈ sep.intercalate ls) : c ∈ sep ∨ ∃ l ∈ ls, c ∈ l := by
  induction ls with
  | nil => cases h
  | cons l ls ih =>
    cases ls with
    | nil =>
      rw [List.intercalate_singleton] at h
      exact .inr ⟨l, List.mem_cons_self, h⟩
    | cons l' ls =>
      rw [List.intercalate_cons_cons, List.mem_append, List.mem_append] at h
      rcases h with (head | sep) | tail
      · exact .inr ⟨l, List.mem_cons_self, head⟩
      · exact .inl sep
      · rcases ih tail with sep | ⟨k, mem, hc⟩
        · exact .inl sep
        · exact .inr ⟨k, List.mem_cons_of_mem l mem, hc⟩

theorem toList_join_lines (ls : List String) :
    (String.join (ls.map (· ++ "\n"))).toList =
      ['\n'].intercalate (ls.map String.toList ++ [[]]) := by
  rw [String.toList_join]
  induction ls with
  | nil => rfl
  | cons l ls ih =>
    rw [List.map_cons, List.flatMap_cons, ih, List.map_cons, List.cons_append,
      List.intercalate_cons_of_ne_nil, String.toList_append]
    · rfl
    · exact List.append_ne_nil_of_right_ne_nil _ (List.cons_ne_nil _ _)

theorem splitOn_join_lines {ls : List String} (h : ∀ l ∈ ls, OneLine l) :
    (String.join (ls.map (· ++ "\n"))).toList.splitOn '\n' = ls.map String.toList ++ [[]] := by
  rw [toList_join_lines]
  apply List.splitOn_intercalate
  · intro cs hcs
    rcases List.mem_append.mp hcs with hcs | hcs
    · obtain ⟨l, hl, rfl⟩ := List.mem_map.mp hcs
      exact h l hl
    · rw [List.mem_singleton.mp hcs]
      exact List.not_mem_nil
  · exact List.append_ne_nil_of_right_ne_nil _ (List.cons_ne_nil _ _)

/-- The lines of a text can be read off. -/
theorem readLines_join {ls : List String} (h : ∀ l ∈ ls, OneLine l) :
    readLines (String.join (ls.map (· ++ "\n"))) = ls := by
  rw [readLines, splitOn_join_lines h, List.dropLast_concat, List.map_map]
  exact (List.map_congr_left fun _ _ ↦ String.ofList_toList).trans (List.map_id _)

/-- The words of a line can be read off. -/
theorem IsLine.splitOn (h : IsLine words) :
    (" ".intercalate words).toList.splitOn ' ' = words.map String.toList := by
  rw [String.toList_intercalate]
  apply List.splitOn_intercalate
  · intro cs mem blank
    obtain ⟨w, hw, rfl⟩ := List.mem_map.mp mem
    exact (h.2 w hw _ blank).1 rfl
  · exact fun none ↦ h.1 (List.map_eq_nil_iff.mp none)

theorem IsLine.oneLine (h : IsLine words) : OneLine (" ".intercalate words) := by
  rw [OneLine, String.toList_intercalate]
  intro mem
  rcases mem_intercalate mem with blank | ⟨l, hl, mem⟩
  · exact absurd blank (by decide)
  · obtain ⟨w, hw, rfl⟩ := List.mem_map.mp hl
    exact (h.2 w hw).oneLine mem

/-- The lines of a page, and their words, can be read off. -/
theorem readPage_page (h : ∀ words ∈ lines, IsLine words) :
    readPage (page lines) = lines.map (List.map String.toList) := by
  have feeds : (page lines).toList.splitOn '\n' =
      (lines.map (" ".intercalate ·)).map String.toList ++ [[]] := by
    have text : page lines = String.join ((lines.map (" ".intercalate ·)).map (· ++ "\n")) := by
      rw [page, List.map_map]
      rfl
    rw [text]
    refine splitOn_join_lines fun l hl ↦ ?_
    obtain ⟨words, mem, rfl⟩ := List.mem_map.mp hl
    exact (h words mem).oneLine
  rw [readPage, feeds, List.dropLast_concat, List.map_map, List.map_map]
  exact List.map_congr_left fun words mem ↦ (h words mem).splitOn

/-- Different lines make different pages. -/
theorem page_inj (h : ∀ words ∈ lines, IsLine words) (h' : ∀ words ∈ lines', IsLine words)
    (same : page lines = page lines') : lines = lines' := by
  have read : lines.map (List.map String.toList) = lines'.map (List.map String.toList) := by
    rw [← readPage_page h, same, readPage_page h']
  have chars : Function.Injective (List.map String.toList) :=
    List.map_injective_iff.mpr fun _ _ ↦ String.toList_inj.mp
  exact List.map_injective_iff.mpr chars read

end StackFlow
