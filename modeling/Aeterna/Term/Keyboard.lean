import Mathlib.Data.List.Basic
import Mathlib.Logic.Function.Basic

/-!
# The keyboard

Scancodes arrive by interrupt in a ring of 256 bytes (`arch/x86_64/idt.rs`) and are decoded one at
a time (`arch/x86_64/keyboard.rs`). `tryReadKey` takes one scancode; many scancodes stand for no key
of their own. `pollKeyPass` is one pass of the loop of `poll_key`, which returns with a key or halts
until the next interrupt.
-/

namespace Aeterna.Term

/-! ## The scancode buffer -/

/-- The ring, with the two counters that run through it. -/
structure KbBuffer where
  buf : ℕ → UInt8
  write : UInt64
  read : UInt64

namespace KbBuffer

def kbBufferSize : UInt64 := 256

def new : KbBuffer := ⟨fun _ => 0, 0, 0⟩

/-- The keyboard interrupt stores a scancode. -/
def store (b : KbBuffer) (scancode : UInt8) : KbBuffer :=
  let writeIdx := (b.write &&& (kbBufferSize - 1)).toNat
  { b with buf := Function.update b.buf writeIdx scancode, write := b.write + 1 }

def kbIrqRead (b : KbBuffer) : Option UInt8 × KbBuffer :=
  if b.read = b.write then (none, b)
  else
    let idx := (b.read &&& (kbBufferSize - 1)).toNat
    (some (b.buf idx), { b with read := b.read + 1 })

end KbBuffer

/-! ## Decoding -/

def keyUp : Char := '\u0080'
def keyDown : Char := '\u0081'
def keyLeft : Char := '\u0082'
def keyRight : Char := '\u0083'
def keyHome : Char := '\u0084'
def keyEnd : Char := '\u0085'
def keyDelete : Char := '\u007f'
def keyPgup : Char := '\u0086'
def keyPgdn : Char := '\u0087'

/-- Keys with consecutive scancodes. -/
def row (first : ℕ) (keys : String) : List (UInt8 × Char) :=
  keys.toList.zipIdx.map fun (c, i) => (UInt8.ofNat (first + i), c)

def extendedKeys : List (UInt8 × Char) :=
  [(0x48, keyUp), (0x50, keyDown), (0x4B, keyLeft), (0x4D, keyRight), (0x47, keyHome),
    (0x4F, keyEnd), (0x53, keyDelete), (0x49, keyPgup), (0x51, keyPgdn)]

def ctrlKeys : List (UInt8 × Char) :=
  [(0x1E, '\x01'), (0x30, '\x02'), (0x2E, '\x03'), (0x20, '\x04'), (0x12, '\x05'), (0x21, '\x06'),
    (0x22, '\x07'), (0x23, '\x08'), (0x25, '\x0b'), (0x26, '\x0c'), (0x31, '\x0e'),
    (0x18, '\x0f'), (0x19, '\x10'), (0x13, '\x12'), (0x1F, '\x13'), (0x14, '\x14'),
    (0x16, '\x15'), (0x2F, '\x16'), (0x11, '\x17'), (0x2D, '\x18'), (0x15, '\x19'),
    (0x2C, '\x1a')]

/-- The keys without modifiers; `KEY_F1` to `KEY_F10` are `U+0088` to `U+0091`. -/
def baseKeys : List (UInt8 × Char) :=
  row 0x01 "\x1b1234567890-=\x08\tqwertyuiop[]\n" ++ row 0x1E "asdfghjkl;'`" ++
    row 0x2B "\\zxcvbnm,./" ++ [(0x37, '*'), (0x39, ' ')] ++
    row 0x3B "\u0088\u0089\u008a\u008b\u008c\u008d\u008e\u008f\u0090\u0091"

def shiftSymbol (c : Char) : Char :=
  ("1234567890-=[]\\;'`,./".toList.zip "!@#$%^&*()_+\x7b\x7d|:\"~<>?".toList).lookup c |>.getD c

structure Keyboard where
  buffer : KbBuffer
  leftShift : Bool
  rightShift : Bool
  ctrlPressed : Bool
  capsLock : Bool
  /-- the prefix `0xE0` has been seen -/
  extended : Bool

namespace Keyboard

def new : Keyboard := ⟨.new, false, false, false, false, false⟩

/-- The modifier keys, pressed and released. -/
def modifier (k : Keyboard) (scancode : UInt8) : Option Keyboard :=
  match scancode with
  | 0x2A => some { k with leftShift := true }
  | 0xAA => some { k with leftShift := false }
  | 0x36 => some { k with rightShift := true }
  | 0xB6 => some { k with rightShift := false }
  | 0x1D => some { k with ctrlPressed := true }
  | 0x9D => some { k with ctrlPressed := false }
  | 0x3A => some { k with capsLock := !k.capsLock }
  | _ => none

def withModifiers (k : Keyboard) (c : Char) : Char :=
  let shiftActive := k.leftShift || k.rightShift
  if c.isAlpha then
    if k.capsLock ^^ shiftActive then c.toUpper else c
  else if shiftActive then shiftSymbol c
  else c

def tryReadKey (k : Keyboard) : Option Char × Keyboard :=
  match k.buffer.kbIrqRead with
  | (none, _) => (none, k)
  | (some scancode, buffer) =>
    let k := { k with buffer := buffer }
    if scancode = 0xE0 then (none, { k with extended := true })
    else
      let isExtended := k.extended
      let k := { k with extended := false }
      let released := scancode &&& 0x80 ≠ 0
      if isExtended then (if released then none else extendedKeys.lookup scancode, k)
      else match k.modifier scancode with
      | some k => (none, k)
      | none =>
        if released then (none, k)
        else if k.ctrlPressed then (ctrlKeys.lookup scancode, k)
        else ((baseKeys.lookup scancode).map k.withModifiers, k)

/-- Shift, then the key of the digit 1. -/
example :
    let k := { new with buffer := (KbBuffer.new.store 0x2A).store 0x02 }
    k.tryReadKey.1 = none ∧ k.tryReadKey.2.tryReadKey.1 = some '!' := by decide +kernel

end Keyboard

/-- One pass of the loop of `poll_key`: it returns, or it halts until the next interrupt. -/
inductive PollPass where
  | returns (key : Option Char)
  | halts

def pollKeyPass (k : Keyboard) : PollPass × Keyboard :=
  match k.tryReadKey with
  | (some c, k) => (.returns (some c), k)
  | (none, k) => (.halts, k)

theorem pollKeyPass_ne_none (k : Keyboard) : (pollKeyPass k).1 ≠ .returns none := by
  unfold pollKeyPass
  split <;> simp

end Aeterna.Term
