import Aeterna.Term.Keyboard
import Aeterna.Vfs.DiskSync

/-!
# The editor

The state of `userland/grape` and `process_key`, which handles one key. The texts of the file and
of a prompt come from outside: an `Input` is a key together with the keys typed after it while
`process_key` waits in a prompt, and the answer of the file system if the buffer is saved.

An index behind the last line would stop the machine; where the source indexes `lines` the model
reads an empty line there.
-/

namespace Aeterna.Grape

open Aeterna.Term
open Aeterna.Vfs (Path rfind pathBytes)

/-- The bytes of a line, without the newline. -/
abbrev Line := List UInt8

structure Editor where
  lines : List Line
  cx : ℕ
  cy : ℕ
  rowOff : ℕ
  colOff : ℕ
  screenRows : ℕ
  screenCols : ℕ
  filename : Path
  dirty : Bool
  statusMsg : List Char
  cutBuffer : Line
  searchQuery : List Char
  quit : Bool

inductive FsCall where
  | mkdir (path : Path)
  | writeFile (path : Path) (data : List UInt8)
deriving DecidableEq

/-! ## Texts -/

/-- The number in place of the first pair of braces, or behind the text. -/
def formatStatus : List Char → ℕ → List Char
  | '\x7b' :: '\x7d' :: rest, num => Nat.toDigits 10 num ++ rest
  | c :: rest, num => c :: formatStatus rest num
  | [], num => Nat.toDigits 10 num

def formatPos (line col total : ℕ) : List Char :=
  "line ".toList ++ Nat.toDigits 10 line ++ "/".toList ++ Nat.toDigits 10 total ++
    ", col ".toList ++ Nat.toDigits 10 col

/-- Decimal digits, with the checks for overflow of a word of 64 bits. -/
def parseUsizeFrom : ℕ → List Char → Option ℕ
  | result, [] => some result
  | result, c :: rest =>
    if c.toNat < '0'.toNat ∨ '9'.toNat < c.toNat then none
    else if 2 ^ 64 ≤ result * 10 then none
    else if 2 ^ 64 ≤ result * 10 + (c.toNat - '0'.toNat) then none
    else parseUsizeFrom (result * 10 + (c.toNat - '0'.toNat)) rest

def parseUsize (s : List Char) : Option ℕ := parseUsizeFrom 0 s

def printable (c : Char) : Bool := 0x20 ≤ c.toNat ∧ c.toNat < 0x80

/-- The loop of `prompt`, over the keys typed in it. -/
def promptLoop : List Char → List Char → Option (List Char)
  | _, [] => none
  | input, key :: typed =>
    if key = '\n' then some input
    else if key = '\x1b' ∨ key = '\x03' then none
    else if key = '\x08' then promptLoop input.dropLast typed
    else if printable key then
      promptLoop (if input.length < 200 then input ++ [key] else input) typed
    else promptLoop input typed

/-- The line typed at a prompt: none if it was cancelled, and none as long as it has no end. Both
leave the editor as it is. -/
def prompt (typed : List Char) : Option (List Char) := promptLoop [] typed

def findInSlice (haystack needle : List UInt8) : Option ℕ :=
  if needle = [] ∨ haystack.length < needle.length then none
  else (List.range (haystack.length - needle.length + 1)).find? fun i =>
    (haystack.drop i).take needle.length == needle

/-- Splits a file at the newlines. `cur` is the line that the loop is in. -/
def loadLoop : List Line → Line → List UInt8 → List Line
  | lines, cur, [] => lines ++ [cur]
  | lines, cur, b :: data =>
    if b = '\n'.toUInt8 then loadLoop (lines ++ [cur]) [] data
    else loadLoop lines (cur ++ [b]) data

def loadBuffer (data : List UInt8) : List Line := loadLoop [] [] data

def joinLines (lines : List Line) : List UInt8 := List.intercalate ['\n'.toUInt8] lines

def newline : UInt8 := '\n'.toUInt8

theorem joinLines_cons (l : Line) {ls : List Line} (h : ls ≠ []) :
    joinLines (l :: ls) = l ++ newline :: joinLines ls := by
  obtain ⟨l', ls, rfl⟩ := List.exists_cons_of_ne_nil h
  simp [joinLines, newline]

theorem joinLines_append_cons (ls : List Line) (l : Line) (rs : List Line) :
    joinLines (ls ++ l :: rs) = ls.flatMap (· ++ [newline]) ++ l ++ rs.flatMap (newline :: ·) := by
  induction ls with
  | nil =>
    induction rs generalizing l with
    | nil => simp [joinLines]
    | cons r rs ih =>
      rw [List.nil_append, joinLines_cons l (List.cons_ne_nil r rs), ← List.nil_append (r :: rs), ih]
      simp
  | cons x ls ih =>
    rw [List.cons_append, joinLines_cons x (by simp), ih]
    simp

theorem joinLines_loadLoop (data : List UInt8) (lines : List Line) (cur : Line) :
    joinLines (loadLoop lines cur data) = joinLines (lines ++ [cur]) ++ data := by
  induction data generalizing lines cur with
  | nil => exact (List.append_nil _).symm
  | cons b data ih =>
    unfold loadLoop
    split_ifs with hb
    · rw [ih, joinLines_append_cons, joinLines_append_cons, hb]
      simp [newline]
    · rw [ih, joinLines_append_cons, joinLines_append_cons]
      simp

theorem joinLines_loadBuffer (data : List UInt8) : joinLines (loadBuffer data) = data := by
  unfold loadBuffer
  rw [joinLines_loadLoop]
  rfl

/-- The scroll offset after the cursor has moved to `pos`, on `size` visible cells. -/
def scroll (pos off size : ℕ) : ℕ :=
  let off := if pos < off then pos else off
  if pos ≥ off + size then pos - size + 1 else off

namespace Editor

def line (s : Editor) (k : ℕ) : Line := s.lines.getD k []

/-! ## The cursor -/

def clampScroll (s : Editor) : Editor :=
  { s with rowOff := scroll s.cy s.rowOff s.screenRows
           colOff := scroll s.cx s.colOff s.screenCols }

def clampCx (s : Editor) : Editor :=
  if s.cy < s.lines.length then
    if s.cx > (s.line s.cy).length then { s with cx := (s.line s.cy).length } else s
  else s

def moveUp (s : Editor) : Editor :=
  clampScroll (if s.cy > 0 then clampCx { s with cy := s.cy - 1 } else s)

def moveDown (s : Editor) : Editor :=
  clampScroll (if s.cy < s.lines.length - 1 then clampCx { s with cy := s.cy + 1 } else s)

def moveLeft (s : Editor) : Editor :=
  clampScroll
    (if s.cx > 0 then { s with cx := s.cx - 1 }
    else if s.cy > 0 then { s with cy := s.cy - 1, cx := (s.line (s.cy - 1)).length }
    else s)

def moveRight (s : Editor) : Editor :=
  clampScroll
    (if s.cy < s.lines.length then
      if s.cx < (s.line s.cy).length then { s with cx := s.cx + 1 }
      else if s.cy < s.lines.length - 1 then { s with cy := s.cy + 1, cx := 0 }
      else s
    else s)

/-! ## The text -/

def insertChar (s : Editor) (ch : UInt8) : Editor :=
  let lines := if s.cy ≥ s.lines.length then s.lines ++ [[]] else s.lines
  let line := lines.getD s.cy []
  let cx := if s.cx > line.length then line.length else s.cx
  clampScroll { s with lines := lines.set s.cy (line.insertIdx cx ch), cx := cx + 1, dirty := true }

def deleteChar (s : Editor) : Editor :=
  if s.cy ≥ s.lines.length then s
  else if s.cx < (s.line s.cy).length then
    { s with lines := s.lines.set s.cy ((s.line s.cy).eraseIdx s.cx), dirty := true }
  else if s.cy + 1 < s.lines.length then
    { s with
      lines := (s.lines.set s.cy (s.line s.cy ++ s.line (s.cy + 1))).eraseIdx (s.cy + 1)
      dirty := true }
  else s

def insertNewline (s : Editor) : Editor :=
  if s.cy ≥ s.lines.length then
    clampScroll { s with lines := s.lines ++ [[]], cy := s.cy + 1, cx := 0, dirty := true }
  else
    clampScroll { s with
      lines := (s.lines.set s.cy ((s.line s.cy).take s.cx)).insertIdx (s.cy + 1)
        ((s.line s.cy).drop s.cx)
      cy := s.cy + 1, cx := 0, dirty := true }

/-! ## The commands -/

def exit (s : Editor) : Editor :=
  if s.dirty then
    { s with
      statusMsg := "Modified buffer! Ctrl+X again to discard, Ctrl+O to save".toList
      dirty := false }
  else { s with quit := true }

def saveCalls (s : Editor) : List FsCall :=
  (match rfind '/' s.filename with
    | some (pos + 1) => [.mkdir (s.filename.take (pos + 1))]
    | _ => []) ++ [.writeFile s.filename (joinLines s.lines)]

/-- `written` is what `write_file` returns. -/
def saveFile (s : Editor) (written : Bool) : Editor :=
  if written then
    { s with
      dirty := false
      statusMsg := formatStatus "Wrote \x7b\x7d bytes to ".toList (joinLines s.lines).length ++
        s.filename }
  else { s with statusMsg := "[ Error writing file! ]".toList }

/-- Asks for a file name if there is none yet. -/
def withFilename (s : Editor) (typed : List Char) : Editor :=
  if s.filename = [] then { s with filename := (prompt typed).getD [] } else s

def writeOut (s : Editor) (typed : List Char) (written : Bool) : Editor × List FsCall :=
  let s := s.withFilename typed
  if s.filename = [] then (s, []) else (s.saveFile written, s.saveCalls)

/-- The lines without the cursor's; there is always one. -/
def otherLines (s : Editor) : List Line :=
  if s.lines.eraseIdx s.cy = [] then [[]] else s.lines.eraseIdx s.cy

def cutLine (s : Editor) : Editor :=
  if s.cy < s.lines.length then
    let cy := if s.cy ≥ s.otherLines.length then s.otherLines.length - 1 else s.cy
    clampCx { s with cutBuffer := s.line s.cy, lines := s.otherLines, cy := cy, dirty := true }
  else s

def uncutLine (s : Editor) : Editor :=
  if s.cutBuffer = [] then s
  else { s with lines := s.lines.insertIdx s.cy s.cutBuffer, dirty := true }

/-- The first occurrence behind the cursor, from line to line and on from the first one. -/
def searchFrom (s : Editor) (query : List UInt8) : Option (ℕ × ℕ) :=
  (List.range s.lines.length).findSome? fun offset =>
    let lineIdx := (s.cy + offset) % s.lines.length
    let searchStart := if offset = 0 then s.cx + 1 else 0
    if searchStart < (s.line lineIdx).length then
      (findInSlice ((s.line lineIdx).drop searchStart) query).map fun pos =>
        (lineIdx, searchStart + pos)
    else none

def searchForward (s : Editor) : Editor :=
  if s.searchQuery = [] then s
  else match s.searchFrom (pathBytes s.searchQuery) with
    | some (y, x) => clampScroll { s with cy := y, cx := x, statusMsg := "Found".toList }
    | none => { s with statusMsg := "[ Not Found ]".toList }

def search (s : Editor) (typed : List Char) : Editor :=
  match prompt typed with
  | some query => if query = [] then s else searchForward { s with searchQuery := query }
  | none => s

def goToLine (s : Editor) (typed : List Char) : Editor :=
  match (prompt typed).bind parseUsize with
  | some n => if n > 0 ∧ n ≤ s.lines.length then clampScroll { s with cy := n - 1, cx := 0 } else s
  | none => s

def showPosition (s : Editor) : Editor :=
  { s with statusMsg := formatPos (s.cy + 1) (s.cx + 1) s.lines.length }

def moveEnd (s : Editor) : Editor :=
  if s.cy < s.lines.length then { s with cx := (s.line s.cy).length } else s

def backspace (s : Editor) : Editor :=
  if s.cx > 0 then deleteChar (moveLeft s)
  else if s.cy > 0 then
    { s with
      lines := (s.lines.set (s.cy - 1) (s.line (s.cy - 1) ++ s.line s.cy)).eraseIdx s.cy
      cy := s.cy - 1, cx := (s.line (s.cy - 1)).length, dirty := true }
  else s

end Editor

/-! ## Keys -/

inductive Command where
  | exit | writeOut | cut | uncut | help | search | goToLine | showPosition
  | up | down | left | right | home | lineEnd | pageUp | pageDown
  | delete | backspace | newline | tab | escape | redraw
  | insert (ch : UInt8)
  | ignore
deriving DecidableEq

/-- The arms of the `match` in `process_key`, in their order. -/
def command (key : Char) : Command :=
  if key = '\x18' then .exit
  else if key = '\x0f' then .writeOut
  else if key = '\x0b' then .cut
  else if key = '\x15' then .uncut
  else if key = '\x07' then .help
  else if key = '\x17' then .search
  else if key = '\x14' then .goToLine
  else if key = '\x03' then .showPosition
  else if key = keyUp then .up
  else if key = keyDown then .down
  else if key = keyLeft then .left
  else if key = keyRight then .right
  else if key = keyHome then .home
  else if key = keyEnd then .lineEnd
  else if key = keyPgup then .pageUp
  else if key = keyPgdn then .pageDown
  else if key = keyDelete then .delete
  else if key = '\x08' then .backspace
  else if key = '\n' then .newline
  else if key = '\t' then .tab
  else if key = '\x1b' then .escape
  else if key = '\x0c' then .redraw
  else if printable key then .insert key.toUInt8
  else .ignore

/-- A key, the keys typed after it at a prompt, and what `write_file` returns. -/
structure Input where
  key : Char
  typed : List Char
  written : Bool

namespace Editor

/-- The new state and the calls of the file system. -/
def processKey (s : Editor) (i : Input) : Editor × List FsCall :=
  match command i.key with
  | .writeOut => s.writeOut i.typed i.written
  | .exit => (s.exit, [])
  | .cut => (s.cutLine, [])
  | .uncut => (s.uncutLine, [])
  | .search => (s.search i.typed, [])
  | .goToLine => (s.goToLine i.typed, [])
  | .showPosition => (s.showPosition, [])
  | .up => (s.moveUp, [])
  | .down => (s.moveDown, [])
  | .left => (s.moveLeft, [])
  | .right => (s.moveRight, [])
  | .home => ({ s with cx := 0 }, [])
  | .lineEnd => (s.moveEnd, [])
  | .pageUp => (moveUp^[s.screenRows] s, [])
  | .pageDown => (moveDown^[s.screenRows] s, [])
  | .delete => (s.deleteChar, [])
  | .backspace => (s.backspace, [])
  | .newline => (s.insertNewline, [])
  | .tab => ((fun s => insertChar s 0x20)^[4] s, [])
  | .insert ch => (s.insertChar ch, [])
  | .help | .escape | .redraw | .ignore => (s, [])

/-- One pass of the loop of `edit`, which has ended after `quit`. -/
def step (s : Editor) (i : Input) : Editor := if s.quit then s else (s.processKey i).1

end Editor

/-- The state in which `edit` enters its loop, on a screen of `rows` and `cols`. `file` is what
`read_file` returns for a path that is not empty. -/
def edit (rows cols : ℕ) (path : Path) (file : Option (List UInt8)) : Editor where
  lines := if path = [] then [[]] else match file with
    | some data => loadBuffer data
    | none => [[]]
  cx := 0
  cy := 0
  rowOff := 0
  colOff := 0
  -- a title, a status and a help row
  screenRows := rows - 3
  screenCols := cols
  filename := path
  dirty := false
  statusMsg := if path = [] then "[ New Buffer ]".toList else match file with
    | some data => formatStatus "Read \x7b\x7d bytes".toList data.length
    | none => "[ New File ]".toList
  cutBuffer := []
  searchQuery := []
  quit := false

end Aeterna.Grape
