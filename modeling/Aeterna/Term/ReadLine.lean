import Aeterna.Term.Keyboard
import Aeterna.Vfs.WriteBack

/-!
# The terminal's input loop

`read_line` of `src/terminal.rs` takes keys from `poll_key` and edits the line until a key ends it.
Its other branch, for a `poll_key` that returns without a key, halts and then calls `deferred_tick`,
the only call there is. `poll_key` has a loop of its own that halts when there is no key and never
returns without one, so that branch is not reached (`always_not_yielded`): a key finds the deferred
flush done in time exactly when none was due (`eachStep_flushesFirst_iff`).
-/

namespace Aeterna.Term

open Aeterna.Vfs (Op Drivers SyncState syncFilesystem deferredSyncTicks)

abbrev Text := List UInt8

/-! ## The line editor -/

def inputBufferSize : ℕ := 256
def historySize : ℕ := 16

/-- The lines entered before, in a ring of slots. -/
structure History where
  slots : ℕ → Text
  count : ℕ
  pos : ℕ
  browsing : Bool

namespace History

def up (h : History) : Option Text × History :=
  if h.count = 0 then (none, h)
  else
    let h := if h.browsing then h else { h with pos := h.count, browsing := true }
    if h.pos = 0 then (none, h)
    else
      let oldest := if h.count > historySize then h.count - historySize else 0
      if h.pos ≤ oldest then (none, h)
      else
        let pos := h.pos - 1
        (some (h.slots (pos % historySize)), { h with pos := pos })

def down (h : History) : Option Text × History :=
  if ¬ h.browsing then (none, h)
  else if h.pos ≥ h.count then (none, h)
  else
    let h := { h with pos := h.pos + 1 }
    if h.pos ≥ h.count then (some [], { h with browsing := false })
    else (some (h.slots (h.pos % historySize)), h)

end History

/-- The text entered so far and the cursor in it. -/
structure Editor where
  text : Text
  cursor : ℕ
  history : History

namespace Editor

def replaceInputLine (e : Editor) (newText : Text) : Editor :=
  let text := newText.take (inputBufferSize - 1)
  { e with text := text, cursor := text.length }

def insert (e : Editor) (bytes : Text) : Editor :=
  { e with text := e.text.take e.cursor ++ bytes ++ e.text.drop e.cursor
           cursor := e.cursor + bytes.length }

def backspace (e : Editor) : Editor :=
  if e.cursor > 0 then
    { e with text := e.text.take (e.cursor - 1) ++ e.text.drop e.cursor, cursor := e.cursor - 1 }
  else e

def delete (e : Editor) : Editor :=
  if e.cursor < e.text.length then
    { e with text := e.text.take e.cursor ++ e.text.drop (e.cursor + 1) }
  else e

/-- `try_complete`, where `suffix` is what the only match adds to the word at the cursor. -/
def tryComplete (e : Editor) (suffix : Text) : Editor :=
  if e.text.length + suffix.length ≥ inputBufferSize then e else e.insert suffix

/-- One key. The line is returned by the keys that end it. -/
def key (e : Editor) (suffix : Text) (ch : Char) : Editor × Option Text :=
  if ch = '\n' then (e, some e.text)
  else if ch = '\x08' then (e.backspace, none)
  else if ch = keyDelete then (e.delete, none)
  else if ch = keyLeft then (if e.cursor > 0 then { e with cursor := e.cursor - 1 } else e, none)
  else if ch = keyRight then
    (if e.cursor < e.text.length then { e with cursor := e.cursor + 1 } else e, none)
  else if ch = keyHome then ({ e with cursor := 0 }, none)
  else if ch = keyEnd then ({ e with cursor := e.text.length }, none)
  else if ch = keyUp then
    let (found, history) := e.history.up
    let e := { e with history := history }
    (match found with | some text => e.replaceInputLine text | none => e, none)
  else if ch = keyDown then
    let (found, history) := e.history.down
    let e := { e with history := history }
    (match found with | some text => e.replaceInputLine text | none => e, none)
  else if ch = '\x03' ∨ ch = '\x0c' then ({ e with text := [], cursor := 0 }, some [])
  else if ch = '\t' then (e.tryComplete suffix, none)
  else if ch = '\x1b' ∨ ch = '\x04' ∨ ch = keyPgup ∨ ch = keyPgdn then (e, none)
  else if ch.toNat < 128 ∧ ch.toNat ≥ 0x20 then
    (if e.text.length < inputBufferSize - 1 then e.insert [UInt8.ofNat ch.toNat] else e, none)
  else (e, none)

end Editor

/-! ## The loop -/

/-- Where `read_line` is: in `poll_key`, behind its own `hlt`, or done. -/
inductive Point where
  | polling
  | yielded
  | returned (line : Text)

/-- The terminal, the file system and the timer. `dirtyTicks` counts the ticks for which the file
system has been dirty, `overdue` notes that since the last key an idle tick found it dirty for
`DEFERRED_SYNC_TICKS`, and `owed` that `deferred_tick` has not been called since. -/
structure Terminal where
  kb : Keyboard
  editor : Editor
  fs : SyncState
  clock : UInt64
  point : Point
  halted : Bool
  dirtyTicks : ℕ
  overdue : Bool
  owed : Bool

namespace Terminal

inductive Action where
  | timer
  | scancode (code : UInt8)
  /-- the processor goes on, if it is not halted, up to its next `hlt` -/
  | resume (suffix : Text) (drivers : Drivers)
  /-- other tasks -/
  | mutate (op : Op)
  | sync (drivers : Drivers)

def KeyWaiting (s : Terminal) : Prop := s.kb.buffer.read ≠ s.kb.buffer.write

instance (s : Terminal) : Decidable s.KeyWaiting := inferInstanceAs (Decidable (_ ≠ _))

/-- The file system has been dirty for long enough and no key is waiting. -/
def FlushDue (s : Terminal) : Prop :=
  s.fs.dirty = true ∧ deferredSyncTicks.toNat ≤ s.dirtyTicks ∧ ¬ s.KeyWaiting

instance (s : Terminal) : Decidable s.FlushDue := inferInstanceAs (Decidable (_ ∧ _))

def timerIrq (s : Terminal) : Terminal :=
  { s with clock := s.clock + 1
           halted := false
           dirtyTicks := if s.fs.dirty then s.dirtyTicks + 1 else 0
           overdue := s.overdue || decide s.FlushDue
           owed := s.owed || decide s.FlushDue }

/-- The file system after a call of `sync_filesystem`. -/
def setFs (s : Terminal) (fs : SyncState) : Terminal :=
  { s with fs := fs, dirtyTicks := if fs.dirty then s.dirtyTicks else 0 }

/-- `read_line` after `poll_key` has returned. -/
def afterPoll (s : Terminal) (suffix : Text) : Option Char → Terminal
  | some ch =>
    let (editor, line) := s.editor.key suffix ch
    { s with editor := editor
             point := match line with | some line => .returned line | none => .polling
             overdue := false
             owed := false }
  | none => { s with point := .yielded, halted := true }

/-- The code runs up to its next `hlt`. -/
def pass (s : Terminal) (suffix : Text) (drivers : Drivers) : Terminal :=
  match s.point with
  | .polling =>
    let (result, kb) := pollKeyPass s.kb
    let s := { s with kb := kb }
    match result with
    | .returns c => s.afterPoll suffix c
    | .halts => { s with halted := true }
  | .yielded =>
    { s.setFs (s.fs.deferredTick s.clock drivers) with point := .polling, owed := false }
  | .returned _ => s

def step (s : Terminal) : Action → Terminal
  | .timer => s.timerIrq
  | .scancode code => { s with kb := { s.kb with buffer := s.kb.buffer.store code }, halted := false }
  | .resume suffix drivers => if s.halted then s else s.pass suffix drivers
  | .mutate op => { s with fs := (s.fs.mutate s.clock op).2 }
  | .sync drivers => s.setFs (syncFilesystem s.fs drivers).2

/-- `read_line` begins, with the file system dirty for `dirtyTicks` ticks. -/
def start (kb : Keyboard) (history : History) (fs : SyncState) (clock : UInt64)
    (dirtyTicks : ℕ) : Terminal where
  kb := kb
  editor := ⟨[], 0, { history with browsing := false }⟩
  fs := fs
  clock := clock
  point := .polling
  halted := false
  dirtyTicks := dirtyTicks
  overdue := false
  owed := false

def ProcessesKey (s : Terminal) : Action → Prop
  | .resume _ _ => s.halted = false ∧ s.point = .polling ∧ s.kb.tryReadKey.1 ≠ none
  | _ => False

/-- Before a key is processed, `deferred_tick` has been called for every idle tick that found the
flush due. -/
def FlushesFirst (s : Terminal) (a : Action) : Prop := ProcessesKey s a → s.owed = false

/-- No key is processed after an idle tick that found the flush due. -/
def NeverOverdue (s : Terminal) (a : Action) : Prop := ProcessesKey s a → s.overdue = false

/-! ## The branch that is not reached -/

variable {s : Terminal}

/-- `read_line` is not behind its own `hlt`, and has not called `deferred_tick`. -/
structure Unyielding (s : Terminal) : Prop where
  point : s.point ≠ .yielded
  owed : s.owed = s.overdue

theorem unyielding_start (kb : Keyboard) (history : History) (fs : SyncState) (clock : UInt64)
    (dirtyTicks : ℕ) : Unyielding (start kb history fs clock dirtyTicks) := ⟨nofun, rfl⟩

theorem Unyielding.afterPoll (suffix : Text) (c : Char) :
    Unyielding (s.afterPoll suffix (some c)) := by
  refine ⟨?_, rfl⟩
  dsimp only [Terminal.afterPoll]
  split <;> simp

theorem Unyielding.pass (h : Unyielding s) (suffix : Text) (drivers : Drivers) :
    Unyielding (s.pass suffix drivers) := by
  unfold Terminal.pass
  split
  · have hpoll := pollKeyPass_ne_none s.kb
    dsimp only
    split
    · rename_i key hkey
      cases key with
      | none => exact absurd hkey hpoll
      | some c => exact Unyielding.afterPoll suffix c
    · exact ⟨h.point, h.owed⟩
  · exact absurd ‹_› h.point
  · exact h

theorem Unyielding.step (h : Unyielding s) (a : Action) : Unyielding (s.step a) := by
  cases a with
  | timer => exact ⟨h.point, congrArg (· || decide s.FlushDue) h.owed⟩
  | scancode code => exact ⟨h.point, h.owed⟩
  | resume suffix drivers =>
    dsimp only [Terminal.step]
    split_ifs
    · exact h
    · exact h.pass suffix drivers
  | mutate op => exact ⟨h.point, h.owed⟩
  | sync drivers => exact ⟨h.point, h.owed⟩

/-- **Idle write-back.** A run calls `deferred_tick` between every idle tick that finds the flush
due and the next key exactly when no key follows such a tick. -/
theorem eachStep_flushesFirst_iff (kb : Keyboard) (history : History) (fs : SyncState)
    (clock : UInt64) (dirtyTicks : ℕ) (as : List Action) :
    Lib.EachStep step FlushesFirst (start kb history fs clock dirtyTicks) as ↔
      Lib.EachStep step NeverOverdue (start kb history fs clock dirtyTicks) as :=
  Lib.eachStep_congr (unyielding_start kb history fs clock dirtyTicks) (fun _ a h => h.step a)
    fun s a h => by rw [FlushesFirst, NeverOverdue, h.owed]

/-- An empty file system that has been dirty for ten seconds. -/
def dirtyStart : Terminal :=
  start .new ⟨fun _ => [], 0, 0, false⟩ ⟨some ∅, true, 0, 0, none, fun _ => Vector.replicate 512 0⟩
    1000 1000

/-- The processor goes on, with drivers that do their part. -/
def wake : Action := .resume [] ⟨true, true, fun _ => Vector.replicate 512 0, true⟩

/-- `poll_key` halts, a tick passes, `poll_key` halts again and the key A is pressed: it is
processed, and nothing has been flushed. -/
theorem not_flushesFirst_key :
    ¬ Lib.EachStep step FlushesFirst dirtyStart [wake, .timer, wake, .scancode 0x1E, wake] := by
  rintro ⟨-, -, -, -, h, -⟩
  exact absurd (h ⟨by decide +kernel, rfl, by decide +kernel⟩) (by decide +kernel)

end Terminal

end Aeterna.Term
