import Mathlib
import Aeterna.Vfs.Path

/-!
# The in-memory file system

The RamFS of `vfs/ramfs.rs`: one map from absolute paths to nodes. Directories are nodes of their
own; what is in a directory is found by the prefix of its path. Here are the functions that change
the map, each with the answer it gives its caller, and `step`, which puts them together.
-/

namespace Aeterna.Vfs

abbrev Data := List UInt8

inductive RamNode where
  | file (data : Data)
  | dir
  deriving DecidableEq

/-- The map from paths to nodes, in the order of the paths. -/
abbrev Tree := Std.ExtTreeMap Path RamNode

/-! ## The default files -/

def initDirs : List String :=
  ["/", "/etc", "/tmp", "/home", "/home/root", "/var", "/var/log", "/dev", "/boot", "/proc", "/sys",
    "/sys/kernel", "/sys/devices", "/info", "/doom"]

/-- The default files, each by its lines. -/
def initFiles : List (String × List String) :=
  [("/etc/hostname", ["ospab"]),
    ("/etc/os-release",
      ["NAME=\"ospab.os\"", "VERSION=\"1.0.0\"", "ID=ospab",
        "PRETTY_NAME=\"ospab.os 1.0.0 (AETERNA)\"",
        "HOME_URL=\"https://github.com/nicorp/ospab-os\"", "BUILD_ID=nightly"]),
    ("/etc/motd",
      ["Welcome to ospab.os (AETERNA Microkernel)", "Type 'help' for available commands."]),
    ("/etc/hosts",
      ["# AETERNA /etc/hosts", "127.0.0.1\tlocalhost", "10.0.2.2\tgateway router host",
        "10.0.2.3\tdns nameserver", "216.239.35.0\ttime1.google.com ntp",
        "216.239.35.4\ttime2.google.com", "162.159.200.1\ttime.cloudflare.com"]),
    ("/etc/resolv.conf",
      ["# AETERNA DNS resolver config", "# Managed manually", "nameserver 1.1.1.1",
        "nameserver 1.0.0.1", "nameserver 8.8.8.8", "nameserver 8.8.4.4"]),
    ("/etc/resolve",
      ["# alias of resolv.conf format", "nameserver 1.1.1.1", "nameserver 1.0.0.1",
        "nameserver 8.8.8.8", "nameserver 8.8.4.4"]),
    ("/etc/timezone", ["UTC"]),
    ("/info/author.txt",
      ["AETERNA Microkernel", "Author: ospab", "Language: Rust (no_std)", "Target: x86_64",
        "License: BSL-1.1", "Repository: https://github.com/nicorp/ospab-os"]),
    ("/CHANGELOG.md",
      ["# AETERNA Changelog", "", "## [1.0.0] - 2026-03-05",
        "- First public release of AETERNA microkernel",
        "- POSIX-style VFS layer with RamFS and AHCI sync",
        "- Networking via RTL8139 and Intel e1000 (ARP, IP, ICMP, UDP, SNTP)",
        "- Interactive shell (plum) with env, aliases, and bash scripts",
        "- Text editor (grape) and package manager (tomato)",
        "- Port of DOOM (doomgeneric) running on bare metal",
        "- Internal Verification Suite (IVS) for mem/sched/net/audio",
        "- Compute-First preemptive scheduler with Capability-based security",
        "- SIMD-accelerated Aeterna Neural Engine (ANE) for AI inference"]),
    ("/info/welcome.txt",
      ["Welcome to AETERNA!", "", "This is ospab.os v1.0.0, a research kernel",
        "written from scratch in Rust. This file is stored in RamFS --",
        "a real in-memory filesystem.", "", "Try:", "  ls /       -- directory listing",
        "  cat /etc/os-release", "  mkdir /tmp/test", "  touch /tmp/test/hello.txt",
        "  echo Hello, AETERNA! > /tmp/test/hello.txt", "  cat /tmp/test/hello.txt"]),
    ("/boot/KERNEL", ["AETERNA 1.0.0 x86_64 ELF64"]),
    ("/boot/limine.conf",
      ["TIMEOUT=0", ":ospab.os", "  PROTOCOL=limine", "  KERNEL_PATH=boot:///KERNEL"]),
    ("/dev/null", []), ("/dev/zero", []), ("/dev/console", []), ("/dev/ttyS0", []),
    ("/dev/fb0", []), ("/dev/mem", [])]

/-- The bytes of a text, with a newline after every line. -/
def textOf (lines : List String) : Data := lines.flatMap fun line => line.toUTF8.toList ++ [10]

def init : Tree :=
  let dirs := initDirs.foldl (fun tree path => tree.insert path.toList .dir) (∅ : Tree)
  initFiles.foldl (fun tree (path, lines) => tree.insert path.toList (.file (textOf lines))) dirs

/-! ## Directories -/

/-- `mkdir_internal`, with the number of nested calls bounded by `fuel`. -/
def mkdirFuel : ℕ → Tree → Path → Tree
  | 0, tree, _ => tree
  | fuel + 1, tree, path =>
    if path = rootPath ∨ path = [] then tree
    else
      let par := parent path
      let tree := if par ≠ rootPath ∧ par ∉ tree then mkdirFuel fuel tree par else tree
      if path ∈ tree then tree else tree.insert path .dir

/-- Creates a directory and all its missing parents. A parent is shorter than its child, so the
length of the path bounds the nested calls. -/
def mkdirInternal (tree : Tree) (path : Path) : Tree := mkdirFuel path.length tree path

def ensureParent (tree : Tree) (path : Path) : Tree :=
  let par := parent path
  if par ≠ rootPath ∧ par ∉ tree then mkdirInternal tree par else tree

def mkdir (tree : Tree) (path : Path) : Tree × Bool := (mkdirInternal tree (normalize path), true)

/-! ## Files -/

/-- Stores a file, after the missing parents of its path. -/
def insertFile (tree : Tree) (path : Path) (data : Data) : Tree :=
  (ensureParent tree path).insert path (.file data)

/-- Overwrites `existing` from `offset` on, extended with zeros where it is too short. -/
def overwrite (existing : Data) (offset : ℕ) (data : Data) : Data :=
  let stop := offset + data.length
  let padded := existing ++ List.replicate (stop - existing.length) 0
  padded.take offset ++ data ++ padded.drop stop

def writeAt (tree : Tree) (path : Path) (offset : ℕ) (data : Data) : Tree × Bool :=
  let path := normalize path
  match tree[path]? with
  | some (.file existing) => (tree.insert path (.file (overwrite existing offset data)), true)
  | some .dir => (tree, false)
  | none => (insertFile tree path (List.replicate offset 0 ++ data), true)

def writeFile (tree : Tree) (path : Path) (data : Data) : Tree × Bool :=
  (insertFile tree (normalize path) data, true)

def appendFile (tree : Tree) (path : Path) (data : Data) : Tree × Bool :=
  let path := normalize path
  match tree[path]? with
  | some (.file existing) => (tree.insert path (.file (existing ++ data)), true)
  | _ => (insertFile tree path data, true)

def touch (tree : Tree) (path : Path) : Tree × Bool :=
  let path := normalize path
  if path ∈ tree then (tree, true) else (insertFile tree path [], true)

/-! ## Removing and renaming -/

def remove (tree : Tree) (path : Path) : Tree × Bool :=
  let path := normalize path
  if path = rootPath then (tree, false)
  else if tree[path]? = some .dir ∧ (tree.keys.any fun k => (asPrefix path).isPrefixOf k) = true
  then (tree, false)
  else (tree.erase path, tree.contains path)

/-- Takes the node at `key` out of the tree and records it under its new path. -/
def takeOut (src dst : Path) (state : Tree × List (Path × RamNode)) (key : Path) :
    Tree × List (Path × RamNode) :=
  match state.1[key]? with
  | some node => (state.1.erase key, state.2 ++ [(dst ++ key.drop src.length, node)])
  | none => state

/-- Moves the node at `src` and all that lies below it to `dst`. -/
def moveTree (tree : Tree) (src dst : Path) : Tree :=
  let (tree, moves) := takeOut src dst (tree, []) src
  let children := tree.keys.filter fun k => (asPrefix src).isPrefixOf k
  let (tree, moves) := children.foldl (takeOut src dst) (tree, moves)
  moves.foldl (fun tree (path, node) => tree.insert path node) (ensureParent tree dst)

def rename (tree : Tree) (src dst : Path) : Tree × Bool :=
  let src := normalize src
  let dst := normalize dst
  if src = dst then (tree, true)
  else if src ∉ tree then (tree, false)
  else (moveTree tree src dst, true)

/-! ## Steps -/

inductive Op where
  | writeFile (path : Path) (data : Data)
  | writeAt (path : Path) (offset : ℕ) (data : Data)
  | appendFile (path : Path) (data : Data)
  | touch (path : Path)
  | mkdir (path : Path)
  | remove (path : Path)
  | rename (src dst : Path)

def step (tree : Tree) : Op → Tree
  | .writeFile path data => (writeFile tree path data).1
  | .writeAt path offset data => (writeAt tree path offset data).1
  | .appendFile path data => (appendFile tree path data).1
  | .touch path => (touch tree path).1
  | .mkdir path => (mkdir tree path).1
  | .remove path => (remove tree path).1
  | .rename src dst => (rename tree src dst).1

/-! ## The map -/

theorem getElem?_insert (tree : Tree) (p k : Path) (node : RamNode) :
    (tree.insert p node)[k]? = if p = k then some node else tree[k]? := by
  rw [Std.ExtTreeMap.getElem?_insert]
  simp

theorem getElem?_erase (tree : Tree) (p k : Path) :
    (tree.erase p)[k]? = if p = k then none else tree[k]? := by
  rw [Std.ExtTreeMap.getElem?_erase]
  simp

theorem mem_iff {tree : Tree} {k : Path} : k ∈ tree ↔ tree[k]? ≠ none := by
  rw [Std.ExtTreeMap.mem_iff_isSome_getElem?, Option.isSome_iff_ne_none]

theorem foldl_insert_of_not_mem {moves : List (Path × RamNode)} {k : Path} (tree : Tree)
    (h : ∀ node, (k, node) ∉ moves) :
    (moves.foldl (fun tree (path, node) => tree.insert path node) tree)[k]? = tree[k]? := by
  induction moves generalizing tree with
  | nil => rfl
  | cons m moves ih =>
    obtain ⟨path, node⟩ := m
    rw [List.foldl_cons, ih _ fun node hm => h node (List.mem_cons_of_mem _ hm),
      getElem?_insert, if_neg]
    rintro rfl
    exact h node List.mem_cons_self

theorem foldl_insert_of_mem {moves : List (Path × RamNode)} {k : Path} {node : RamNode}
    (tree : Tree) (hmem : (k, node) ∈ moves)
    (huniq : ∀ node', (k, node') ∈ moves → node' = node) :
    (moves.foldl (fun tree (path, node) => tree.insert path node) tree)[k]? = some node := by
  induction moves using List.reverseRecOn with
  | nil => simp at hmem
  | append_singleton moves m ih =>
    obtain ⟨path, last⟩ := m
    rw [List.foldl_append, List.foldl_cons, List.foldl_nil, getElem?_insert]
    split_ifs with hk
    · subst hk
      rw [huniq last (by simp)]
    · refine ih ?_ fun node' hm => huniq node' (List.mem_append_left _ hm)
      refine (List.mem_append.mp hmem).resolve_right ?_
      simp [Ne.symm hk]

end Aeterna.Vfs
