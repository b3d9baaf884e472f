import Aeterna.Grape.Editor

/-!
# The text behind the lines

The editor keeps a list of lines; what it saves is one text. A position in the lines is an offset in
that text, and a key that edits the lines edits the text there (`text_edits`). The lines before and
behind the cursor enter the text with a newline each (`joinLines_append_cons`), so that it is enough
to look at the cursor's line and its neighbours (`At`).
-/

namespace Aeterna.Grape

section Split

variable {α : Type} (xs ys : List α)

theorem insertIdx_length_append (x : α) : (xs ++ ys).insertIdx xs.length x = xs ++ x :: ys := by
  induction xs with
  | nil => rfl
  | cons y xs ih => simpa using ih

theorem eraseIdx_length_append (x : α) : (xs ++ x :: ys).eraseIdx xs.length = xs ++ ys := by
  rw [List.eraseIdx_append_of_length_le le_rfl, Nat.sub_self, List.eraseIdx_cons_zero]

theorem set_length_append (x z : α) : (xs ++ x :: ys).set xs.length z = xs ++ z :: ys := by
  rw [List.set_append_right _ _ le_rfl, Nat.sub_self, List.set_cons_zero]

theorem insertIdx_length_succ (x z : α) :
    (xs ++ z :: ys).insertIdx (xs.length + 1) x = xs ++ z :: x :: ys := by
  simpa using insertIdx_length_append (xs ++ [z]) ys x

theorem eraseIdx_length_succ (x z : α) :
    (xs ++ z :: x :: ys).eraseIdx (xs.length + 1) = xs ++ z :: ys := by
  simpa using eraseIdx_length_append (xs ++ [z]) ys x

end Split

namespace Editor

def text (s : Editor) : List UInt8 := joinLines s.lines

/-- Where the cursor is in the text: behind the lines above with their newlines. -/
def offset (s : Editor) : ℕ := ((s.lines.take s.cy).map (·.length + 1)).sum + s.cx

/-- The cursor stands between `a` and `b`, with the lines `ls` above and `rs` below. -/
structure At (s : Editor) (ls : List Line) (a b : Line) (rs : List Line) : Prop where
  lines : s.lines = ls ++ (a ++ b) :: rs
  cy : s.cy = ls.length
  cx : s.cx = a.length

theorem exists_at {s : Editor} (hcy : s.cy < s.lines.length) (hcx : s.cx ≤ (s.line s.cy).length) :
    ∃ ls a b rs, s.At ls a b rs := by
  have hline : s.line s.cy = s.lines[s.cy] := List.getD_eq_getElem _ _ hcy
  rw [hline] at hcx
  refine ⟨s.lines.take s.cy, s.lines[s.cy].take s.cx, s.lines[s.cy].drop s.cx,
    s.lines.drop (s.cy + 1), ?_, ?_, ?_⟩
  · rw [List.take_append_drop, List.getElem_cons_drop, List.take_append_drop]
  · rw [List.length_take, Nat.min_eq_left hcy.le]
  · rw [List.length_take, Nat.min_eq_left hcx]

namespace At

variable {s : Editor} {ls rs : List Line} {a b : Line}

theorem line (h : s.At ls a b rs) : s.line s.cy = a ++ b := by
  rw [Editor.line, h.lines, h.cy, List.getD_eq_getElem?_getD]
  simp

theorem cy_lt (h : s.At ls a b rs) : s.cy < s.lines.length := by
  rw [h.lines, h.cy]
  simp

theorem offset_eq (h : s.At ls a b rs) :
    s.offset = (ls.flatMap (· ++ [newline]) ++ a).length := by
  have hlen : ∀ l : Line, (l ++ [newline]).length = l.length + 1 := fun l => by simp
  rw [offset, h.lines, h.cy, h.cx, List.take_left, List.length_append, List.length_flatMap]
  simp only [hlen]

theorem text_eq (h : s.At ls a b rs) :
    s.text = ls.flatMap (· ++ [newline]) ++ a ++ (b ++ rs.flatMap (newline :: ·)) := by
  rw [text, h.lines, joinLines_append_cons]
  simp only [List.append_assoc]

theorem take_text (h : s.At ls a b rs) :
    s.text.take s.offset = ls.flatMap (· ++ [newline]) ++ a := by
  rw [h.text_eq, h.offset_eq, List.take_left]

theorem drop_text (h : s.At ls a b rs) :
    s.text.drop s.offset = b ++ rs.flatMap (newline :: ·) := by
  rw [h.text_eq, h.offset_eq, List.drop_left]

theorem take_text_pred (h : s.At ls a b rs) :
    s.text.take (s.offset - 1) = (ls.flatMap (· ++ [newline]) ++ a).dropLast := by
  rw [h.text_eq, h.offset_eq, List.take_append_of_le_length (Nat.sub_le _ _), List.dropLast_eq_take]

/-! ## The edits -/

theorem insertChar (h : s.At ls a b rs) (ch : UInt8) :
    (s.insertChar ch).lines = ls ++ (a ++ ch :: b) :: rs := by
  have hline := h.line
  unfold Editor.line at hline
  unfold Editor.insertChar
  dsimp only [clampScroll]
  rw [if_neg h.cy_lt.not_ge, hline, h.cx, if_neg (by simp), h.lines, h.cy, insertIdx_length_append]
  simp

theorem insertNewline (h : s.At ls a b rs) :
    s.insertNewline.lines = ls ++ a :: b :: rs := by
  unfold Editor.insertNewline
  rw [if_neg h.cy_lt.not_ge, h.line, h.cx, List.take_left, List.drop_left]
  show (s.lines.set s.cy a).insertIdx (s.cy + 1) b = _
  rw [h.lines, h.cy, set_length_append, insertIdx_length_succ]

theorem deleteChar_cons {x : UInt8} (h : s.At ls a (x :: b) rs) :
    s.deleteChar.lines = ls ++ (a ++ b) :: rs := by
  unfold Editor.deleteChar
  rw [if_neg h.cy_lt.not_ge, h.line, h.cx, if_pos (by simp), eraseIdx_length_append]
  show s.lines.set s.cy (a ++ b) = _
  rw [h.lines, h.cy, set_length_append]

theorem deleteChar_join {l : Line} (h : s.At ls a [] (l :: rs)) :
    s.deleteChar.lines = ls ++ (a ++ l) :: rs := by
  have hnext : s.line (s.cy + 1) = l := by
    rw [Editor.line, h.lines, h.cy, List.getD_eq_getElem?_getD]
    simp
  have hlt : s.cy + 1 < s.lines.length := by
    rw [h.lines, h.cy]
    simp
  unfold Editor.deleteChar
  rw [if_neg h.cy_lt.not_ge, h.line, h.cx, if_neg (by simp), if_pos hlt, hnext]
  show (s.lines.set s.cy (a ++ [] ++ l)).eraseIdx (s.cy + 1) = _
  rw [h.lines, h.cy, set_length_append, eraseIdx_length_succ, List.append_nil]

theorem deleteChar_end (h : s.At ls a [] []) : s.deleteChar = s := by
  unfold Editor.deleteChar
  rw [if_neg h.cy_lt.not_ge, h.line, h.cx, if_neg (by simp), if_neg]
  rw [h.lines, h.cy]
  simp

theorem moveLeft {x : UInt8} (h : s.At ls (a ++ [x]) b rs) : s.moveLeft.At ls a (x :: b) rs := by
  have hcx : s.cx > 0 := by
    rw [h.cx]
    simp
  unfold Editor.moveLeft
  rw [if_pos hcx]
  refine ⟨?_, h.cy, ?_⟩
  · show s.lines = _
    rw [h.lines, List.append_assoc]
    rfl
  · show s.cx - 1 = a.length
    rw [h.cx, List.length_append, List.length_singleton, Nat.add_sub_cancel]

theorem backspace_concat {x : UInt8} (h : s.At ls (a ++ [x]) b rs) :
    s.backspace.lines = ls ++ (a ++ b) :: rs := by
  have hcx : s.cx > 0 := by
    rw [h.cx]
    simp
  unfold Editor.backspace
  rw [if_pos hcx, h.moveLeft.deleteChar_cons]

theorem backspace_join {l : Line} (h : s.At (ls ++ [l]) [] b rs) :
    s.backspace.lines = ls ++ (l ++ b) :: rs := by
  have hcy : s.cy = ls.length + 1 := by
    rw [h.cy]
    simp
  have hline : s.line (s.cy - 1) = l := by
    rw [Editor.line, h.lines, hcy, Nat.add_sub_cancel, List.getD_eq_getElem?_getD]
    simp
  unfold Editor.backspace
  rw [if_neg (by rw [h.cx]; simp), if_pos (by omega), h.line, hline]
  show (s.lines.set (s.cy - 1) (l ++ ([] ++ b))).eraseIdx s.cy = _
  rw [h.lines, hcy, Nat.add_sub_cancel, List.append_assoc, List.singleton_append, set_length_append,
    eraseIdx_length_succ, List.nil_append]

theorem backspace_start (h : s.At [] [] b rs) : s.backspace = s := by
  unfold Editor.backspace
  rw [if_neg (by rw [h.cx]; simp), if_neg (by rw [h.cy]; simp)]

end At

/-! ## Edits of the text -/

section Edits

variable {s : Editor} (hcy : s.cy < s.lines.length) (hcx : s.cx ≤ (s.line s.cy).length)
include hcy hcx

theorem text_insertChar (ch : UInt8) :
    (s.insertChar ch).text = s.text.take s.offset ++ ch :: s.text.drop s.offset := by
  obtain ⟨ls, a, b, rs, h⟩ := exists_at hcy hcx
  rw [h.take_text, h.drop_text, text, h.insertChar, joinLines_append_cons]
  simp

theorem text_insertNewline :
    s.insertNewline.text = s.text.take s.offset ++ newline :: s.text.drop s.offset := by
  obtain ⟨ls, a, b, rs, h⟩ := exists_at hcy hcx
  rw [h.take_text, h.drop_text, text, h.insertNewline, joinLines_append_cons]
  simp

theorem text_deleteChar :
    s.deleteChar.text = s.text.take s.offset ++ s.text.drop (s.offset + 1) := by
  obtain ⟨ls, a, b, rs, h⟩ := exists_at hcy hcx
  rw [h.take_text, ← List.drop_drop, h.drop_text, text]
  rcases b with _ | ⟨x, b⟩
  · rcases rs with _ | ⟨l, rs⟩
    · rw [h.deleteChar_end, h.lines, joinLines_append_cons]
      simp
    · rw [h.deleteChar_join, joinLines_append_cons]
      simp
  · rw [h.deleteChar_cons, joinLines_append_cons]
    simp

theorem text_backspace :
    s.backspace.text = s.text.take (s.offset - 1) ++ s.text.drop s.offset := by
  obtain ⟨ls, a, b, rs, h⟩ := exists_at hcy hcx
  rw [h.take_text_pred, h.drop_text, text]
  rcases List.eq_nil_or_concat a with rfl | ⟨a, x, rfl⟩
  · rcases List.eq_nil_or_concat ls with rfl | ⟨ls, l, rfl⟩
    · rw [h.backspace_start, h.lines, joinLines_append_cons]
      simp
    · rw [List.concat_eq_append] at h ⊢
      rw [h.backspace_join, joinLines_append_cons, List.flatMap_append, List.flatMap_singleton,
        List.append_nil, List.dropLast_append_of_ne_nil (by simp), List.dropLast_concat]
      simp
  · rw [List.concat_eq_append] at h ⊢
    rw [h.backspace_concat, joinLines_append_cons, List.dropLast_append_of_ne_nil (by simp),
      List.dropLast_concat]
    simp

end Edits

/-! ## Lines without newlines -/

/-- Neither a line nor the cut buffer has a newline. -/
structure Clean (s : Editor) : Prop where
  lines : ∀ l ∈ s.lines, newline ∉ l
  cutBuffer : newline ∉ s.cutBuffer

namespace Clean

variable {s s' : Editor}

theorem of_eq (h : s.Clean) (hlines : s'.lines = s.lines) (hcut : s'.cutBuffer = s.cutBuffer) :
    s'.Clean :=
  ⟨hlines ▸ h.lines, hcut ▸ h.cutBuffer⟩

theorem line (h : s.Clean) (k : ℕ) : newline ∉ s.line k := by
  unfold Editor.line
  rw [List.getD_eq_getElem?_getD]
  cases hk : s.lines[k]? with
  | none => exact List.not_mem_nil
  | some l => exact h.lines l (List.mem_of_getElem? hk)

theorem of_lines (h : s.Clean) (hlines : ∀ l ∈ s'.lines, l ∈ s.lines ∨ newline ∉ l)
    (hcut : s'.cutBuffer = s.cutBuffer) : s'.Clean :=
  ⟨fun l hl => (hlines l hl).elim (h.lines l) id, hcut ▸ h.cutBuffer⟩

theorem join (h : s.Clean) {i j k l : ℕ} {line : Line}
    (hmem : line ∈ (s.lines.set i (s.line j ++ s.line k)).eraseIdx l) :
    line ∈ s.lines ∨ newline ∉ line := by
  rcases List.mem_or_eq_of_mem_set (List.mem_of_mem_eraseIdx hmem) with hmem | rfl
  · exact .inl hmem
  · exact .inr fun hmem => (List.mem_append.mp hmem).elim (h.line _) (h.line _)

theorem insertChar (h : s.Clean) {ch : UInt8} (hch : ch ≠ newline) : (s.insertChar ch).Clean := by
  have hlines : ∀ l ∈ (if s.cy ≥ s.lines.length then s.lines ++ [[]] else s.lines), newline ∉ l := by
    intro l hl
    split_ifs at hl
    · rcases List.mem_append.mp hl with hl | hl
      · exact h.lines l hl
      · rw [List.mem_singleton.mp hl]
        exact List.not_mem_nil
    · exact h.lines l hl
  refine ⟨fun l hl => ?_, h.cutBuffer⟩
  rcases List.mem_or_eq_of_mem_set hl with hl | rfl
  · exact hlines l hl
  · intro hmem
    rcases List.eq_or_mem_of_mem_insertIdx hmem with heq | hmem
    · exact hch heq.symm
    · rw [List.getD_eq_getElem?_getD] at hmem
      revert hmem
      generalize hk : (if s.cy ≥ s.lines.length then s.lines ++ [[]] else s.lines)[s.cy]? = o
      cases o with
      | none => exact List.not_mem_nil
      | some l => exact hlines l (List.mem_of_getElem? hk)

theorem deleteChar (h : s.Clean) : s.deleteChar.Clean := by
  unfold Editor.deleteChar
  split_ifs
  · exact h
  · refine h.of_lines (fun l hl => ?_) rfl
    rcases List.mem_or_eq_of_mem_set hl with hl | rfl
    · exact .inl hl
    · exact .inr fun hmem => h.line s.cy (List.mem_of_mem_eraseIdx hmem)
  · exact h.of_lines (fun _ => h.join) rfl
  · exact h

theorem insertNewline (h : s.Clean) : s.insertNewline.Clean := by
  unfold Editor.insertNewline
  split_ifs
  · refine h.of_lines (fun l hl => ?_) rfl
    rcases List.mem_append.mp hl with hl | hl
    · exact .inl hl
    · rw [List.mem_singleton.mp hl]
      exact .inr List.not_mem_nil
  · refine h.of_lines (fun l hl => ?_) rfl
    rcases List.eq_or_mem_of_mem_insertIdx hl with rfl | hl
    · exact .inr fun hmem => h.line s.cy (List.mem_of_mem_drop hmem)
    · rcases List.mem_or_eq_of_mem_set hl with hl | rfl
      · exact .inl hl
      · exact .inr fun hmem => h.line s.cy (List.mem_of_mem_take hmem)

theorem clampCx (h : s.Clean) : s.clampCx.Clean := by
  unfold Editor.clampCx
  split_ifs <;> exact h.of_eq rfl rfl

theorem moveUp (h : s.Clean) : s.moveUp.Clean := by
  unfold Editor.moveUp
  split_ifs
  · exact (clampCx (h.of_eq rfl rfl : Clean { s with cy := s.cy - 1 })).of_eq rfl rfl
  · exact h.of_eq rfl rfl

theorem moveDown (h : s.Clean) : s.moveDown.Clean := by
  unfold Editor.moveDown
  split_ifs
  · exact (clampCx (h.of_eq rfl rfl : Clean { s with cy := s.cy + 1 })).of_eq rfl rfl
  · exact h.of_eq rfl rfl

theorem moveLeft (h : s.Clean) : s.moveLeft.Clean := by
  unfold Editor.moveLeft
  split_ifs <;> exact h.of_eq rfl rfl

theorem moveRight (h : s.Clean) : s.moveRight.Clean := by
  unfold Editor.moveRight
  split_ifs <;> exact h.of_eq rfl rfl

theorem backspace (h : s.Clean) : s.backspace.Clean := by
  unfold Editor.backspace
  split_ifs
  · exact h.moveLeft.deleteChar
  · exact h.of_lines (fun _ => h.join) rfl
  · exact h

theorem cutLine (h : s.Clean) : s.cutLine.Clean := by
  unfold Editor.cutLine
  by_cases hcy : s.cy < s.lines.length
  · rw [if_pos hcy]
    refine clampCx ⟨fun l hl => ?_, h.line s.cy⟩
    have hl : l ∈ s.otherLines := hl
    unfold Editor.otherLines at hl
    split_ifs at hl
    · rw [List.mem_singleton.mp hl]
      exact List.not_mem_nil
    · exact h.lines l (List.mem_of_mem_eraseIdx hl)
  · rw [if_neg hcy]
    exact h

theorem uncutLine (h : s.Clean) : s.uncutLine.Clean := by
  unfold Editor.uncutLine
  split_ifs
  · exact h
  · refine h.of_lines (fun l hl => ?_) rfl
    rcases List.eq_or_mem_of_mem_insertIdx hl with rfl | hl
    · exact .inr h.cutBuffer
    · exact .inl hl

theorem searchForward (h : s.Clean) : s.searchForward.Clean := by
  unfold Editor.searchForward
  split_ifs
  · exact h
  · cases s.searchFrom (Vfs.pathBytes s.searchQuery) with
    | none => exact h.of_eq rfl rfl
    | some found => exact h.of_eq rfl rfl

theorem iterate {f : Editor → Editor} (hf : ∀ {s : Editor}, s.Clean → (f s).Clean) (h : s.Clean)
    (n : ℕ) : (f^[n] s).Clean := by
  induction n generalizing s with
  | zero => exact h
  | succ n ih => exact ih (hf h)

end Clean

end Editor

/-! ## Keys that insert a byte -/

theorem command_of_else {p : Prop} [Decidable p] {c d : Command} {ch : UInt8}
    (hc : c ≠ .insert ch) (h : (if p then c else d) = .insert ch) : d = .insert ch := by
  by_cases hp : p
  · rw [if_pos hp] at h
    exact absurd h hc
  · rwa [if_neg hp] at h

theorem ne_newline_of_insert {key : Char} {ch : UInt8} (h : command key = .insert ch) :
    ch ≠ newline := by
  unfold command at h
  iterate 22 replace h := command_of_else (by simp) h
  split_ifs at h with hkey
  cases h
  have hkey : 0x20 ≤ key.toNat ∧ key.toNat < 0x80 := by simpa [printable] using hkey
  intro heq
  have hnat : key.toNat % 256 = 10 := congrArg UInt8.toNat heq
  omega

theorem command_printable {key : Char} (h : 0x20 ≤ key.toNat) (h' : key.toNat < 0x7f) :
    command key = .insert key.toUInt8 := by
  have hne : ∀ c : Char, c.toNat < 0x20 ∨ 0x7f ≤ c.toNat → key ≠ c := by
    rintro c hc rfl
    omega
  unfold command
  iterate 22 rw [if_neg (hne _ (by decide))]
  rw [if_pos]
  simp only [printable, Bool.decide_and, Bool.and_eq_true, decide_eq_true_eq]
  omega

namespace Editor

variable {s : Editor}

theorem Clean.processKey (h : s.Clean) (i : Input) : (s.processKey i).1.Clean := by
  unfold Editor.processKey
  cases hkey : command i.key with
  | writeOut =>
    refine h.of_eq ?_ ?_ <;> dsimp only [writeOut, withFilename, saveFile] <;> split_ifs <;> rfl
  | exit =>
    refine h.of_eq ?_ ?_ <;> dsimp only [exit] <;> split_ifs <;> rfl
  | cut => exact h.cutLine
  | uncut => exact h.uncutLine
  | search =>
    dsimp only [search]
    cases prompt i.typed with
    | none => exact h
    | some query =>
      dsimp only
      split_ifs
      · exact h
      · exact (h.of_eq rfl rfl : Clean { s with searchQuery := query }).searchForward
  | goToLine =>
    dsimp only [goToLine]
    cases (prompt i.typed).bind parseUsize with
    | none => exact h
    | some n =>
      dsimp only
      split_ifs
      · exact h.of_eq rfl rfl
      · exact h
  | showPosition => exact h.of_eq rfl rfl
  | up => exact h.moveUp
  | down => exact h.moveDown
  | left => exact h.moveLeft
  | right => exact h.moveRight
  | home => exact h.of_eq rfl rfl
  | lineEnd =>
    dsimp only [moveEnd]
    split_ifs <;> exact h.of_eq rfl rfl
  | pageUp => exact h.iterate Clean.moveUp _
  | pageDown => exact h.iterate Clean.moveDown _
  | delete => exact h.deleteChar
  | backspace => exact h.backspace
  | newline => exact h.insertNewline
  | tab => exact h.iterate (fun h => h.insertChar (by decide)) 4
  | insert ch => exact h.insertChar (ne_newline_of_insert hkey)
  | help | escape | redraw | ignore => exact h

theorem Clean.run (h : s.Clean) (inputs : List Input) : (inputs.foldl step s).Clean := by
  induction inputs generalizing s with
  | nil => exact h
  | cons i inputs ih =>
    refine ih ?_
    unfold step
    split_ifs
    · exact h
    · exact h.processKey i

end Editor

theorem clean_loadLoop {lines : List Line} {cur : Line} (data : List UInt8)
    (hlines : ∀ l ∈ lines, newline ∉ l) (hcur : newline ∉ cur) :
    ∀ l ∈ loadLoop lines cur data, newline ∉ l := by
  have happend : ∀ l ∈ lines ++ [cur], newline ∉ l := fun l hl =>
    (List.mem_append.mp hl).elim (hlines l) fun hl => List.mem_singleton.mp hl ▸ hcur
  induction data generalizing lines cur with
  | nil => exact happend
  | cons b data ih =>
    unfold loadLoop
    split_ifs with hb
    · exact ih happend List.not_mem_nil fun l hl => (List.mem_append.mp hl).elim (happend l)
        fun hl => List.mem_singleton.mp hl ▸ List.not_mem_nil
    · have hcur' : newline ∉ cur ++ [b] := fun hmem => (List.mem_append.mp hmem).elim hcur
        fun hmem => hb (List.mem_singleton.mp hmem).symm
      exact ih hlines hcur' fun l hl => (List.mem_append.mp hl).elim (hlines l)
        fun hl => List.mem_singleton.mp hl ▸ hcur'

theorem clean_edit (rows cols : ℕ) (path : Vfs.Path) (file : Option (List UInt8)) :
    (edit rows cols path file).Clean := by
  have hempty : ∀ l ∈ [([] : Line)], newline ∉ l := fun l hl =>
    List.mem_singleton.mp hl ▸ List.not_mem_nil
  refine ⟨?_, List.not_mem_nil⟩
  unfold edit
  dsimp only
  split_ifs
  · exact hempty
  · cases file with
    | none => exact hempty
    | some data => exact clean_loadLoop data (fun l hl => absurd hl List.not_mem_nil) List.not_mem_nil

/-- A file is saved as it was loaded; keys change the text at the cursor's offset; and in no run does
a line get a newline. -/
theorem text_edits :
    (∀ data, joinLines (loadBuffer data) = data) ∧
    (∀ (s : Editor) (i : Input), s.cy < s.lines.length → s.cx ≤ (s.line s.cy).length →
      (0x20 ≤ i.key.toNat → i.key.toNat < 0x7f → (s.processKey i).1.text =
        s.text.take s.offset ++ i.key.toUInt8 :: s.text.drop s.offset) ∧
      (i.key = '\n' → (s.processKey i).1.text =
        s.text.take s.offset ++ newline :: s.text.drop s.offset) ∧
      (i.key = '\x08' → (s.processKey i).1.text =
        s.text.take (s.offset - 1) ++ s.text.drop s.offset) ∧
      (i.key = Term.keyDelete → (s.processKey i).1.text =
        s.text.take s.offset ++ s.text.drop (s.offset + 1))) ∧
    ∀ rows cols path file (inputs : List Input),
      ∀ l ∈ (inputs.foldl Editor.step (edit rows cols path file)).lines, newline ∉ l := by
  refine ⟨joinLines_loadBuffer, fun s i hcy hcx => ⟨fun h h' => ?_, fun hkey => ?_, fun hkey => ?_,
    fun hkey => ?_⟩, fun rows cols path file inputs => ((clean_edit rows cols path file).run inputs).lines⟩
  · rw [Editor.processKey, command_printable h h']
    exact Editor.text_insertChar hcy hcx _
  · rw [Editor.processKey, hkey, show command '\n' = .newline by decide]
    exact Editor.text_insertNewline hcy hcx
  · rw [Editor.processKey, hkey, show command '\x08' = .backspace by decide]
    exact Editor.text_backspace hcy hcx
  · rw [Editor.processKey, hkey, show command Term.keyDelete = .delete by decide]
    exact Editor.text_deleteChar hcy hcx

end Aeterna.Grape
