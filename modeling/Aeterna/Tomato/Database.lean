import Aeterna.Vfs.Calls

/-!
# The package database

The packages of `userland/tomato` and the place of their records, texts below
`/var/lib/tomato/local` under the names of the packages.

The functions take the list of packages where the source calls `builtin_packages`. The recursion of
`resolve_deps` has no bound of its own: `resolveDeps` counts the nested calls down and has no result
when they run out.
-/

namespace Aeterna.Tomato

open Aeterna.Vfs (Tree Path mkdir)
open Aeterna.Vfs.RootMount

abbrev Name := List Char

structure Package where
  name : Name
  version : List Char
  description : List Char
  size : ℕ
  files : List Path
  depends : List Name
  deriving DecidableEq

def localPath : Path := "/var/lib/tomato/local".toList

def recordPath (name : Name) : Path := localPath ++ '/' :: name

theorem recordPath_ne_devAudio (name : Name) : recordPath name ≠ devAudio := fun h =>
  absurd (List.cons.inj (List.cons.inj h).2).1 (by decide)

/-- The directories that `run` makes before every command. -/
def databaseDirs : List Path :=
  ["/var", "/var/lib", "/var/lib/tomato", "/var/lib/tomato/db", "/var/lib/tomato/local",
    "/var/cache", "/var/cache/tomato", "/var/cache/tomato/pkg", "/etc/tomato", "/bin", "/sbin",
    "/lib", "/usr", "/usr/include", "/usr/include/aeterna", "/usr/share", "/usr/share/man",
    "/usr/share/man/man1", "/usr/share/tutor"].map String.toList

def ensureDirs (tree : Tree) : Tree :=
  databaseDirs.foldl (fun tree path => (mkdir tree path).1) tree

/-! ## Dependencies -/

def lookup (pkgs : List Package) (name : Name) : Option Package :=
  pkgs.find? fun p => p.name = name

/-- The body of the loop over the dependencies, with the call for one of them. -/
def visitDep (pkgs : List Package) (resolve : Package → List Package → Option (List Package))
    (result : List Package) (dep : Name) : Option (List Package) :=
  match lookup pkgs dep with
  | some p => resolve p result
  | none => some result

/-- The packages to install, each after its dependencies. -/
def resolveDeps (pkgs : List Package) : ℕ → Package → List Package → Option (List Package)
  | 0, _, _ => none
  | fuel + 1, pkg, result =>
    if result.any fun p => p.name = pkg.name then some result
    else (pkg.depends.foldlM (visitDep pkgs (resolveDeps pkgs fuel)) result).map (· ++ [pkg])

/-! ## The built-in packages -/

/-- A package from the texts of the source. -/
def package (name version description : String) (size : ℕ) (files depends : List String) :
    Package :=
  ⟨name.toList, version.toList, description.toList, size, files.map String.toList,
    depends.map String.toList⟩

def builtinPackages : List Package :=
  [package "coreutils" "1.0.0" "Essential system utilities (ls, cp, mv, pwd, cat)" 2048
      ["/bin/ls", "/bin/cp", "/bin/mv", "/bin/pwd", "/bin/cat"] [],
    package "grape" "1.0.0" "Terminal text editor (nano-like)" 4096
      ["/bin/grape", "/etc/grape/graperc"] [],
    package "plum" "1.0.0" "System shell for AETERNA" 3072
      ["/bin/plum", "/etc/plum/plumrc"] ["coreutils"],
    package "net-tools" "1.0.0" "Network utilities (ping, ifconfig, ntpdate)" 1536
      ["/bin/ping", "/bin/ifconfig", "/bin/ntpdate"] [],
    package "tutor" "1.0.0" "Interactive system tutorial" 1024
      ["/bin/tutor", "/usr/share/tutor/lessons.dat"] [],
    package "kernel-headers" "2.0.3" "AETERNA kernel headers for module development" 8192
      ["/usr/include/aeterna/types.h", "/usr/include/aeterna/syscall.h",
        "/usr/include/aeterna/ipc.h", "/usr/include/aeterna/capability.h"] [],
    package "ospab-libc" "0.1.0" "Optimized C library for AETERNA microkernel" 16384
      ["/lib/libc.so", "/usr/include/stdio.h", "/usr/include/stdlib.h", "/usr/include/string.h"]
      ["kernel-headers"],
    package "base" "1.0.0" "Base meta-package for ospab.os" 256 []
      ["coreutils", "plum", "grape", "net-tools"],
    package "man-pages" "1.0.0" "Manual pages for system commands" 5120
      ["/usr/share/man/man1/ls.1", "/usr/share/man/man1/cat.1", "/usr/share/man/man1/grape.1",
        "/usr/share/man/man1/tomato.1"] [],
    package "seed" "1.0.0" "Init system for AETERNA (PID 1)" 2048
      ["/sbin/seed", "/etc/seed/init.conf"] ["plum"]]

end Aeterna.Tomato
