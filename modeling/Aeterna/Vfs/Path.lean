import Mathlib.Data.List.TakeDrop
import Aeterna.Lib.PathTree

/-!
# Path strings

The path functions of `vfs/ramfs.rs`, on strings as lists of characters, and the normal form of a
path: `/`, or names that are not empty and hold no slash, each after a slash. `render` spells a list
of names; it is a bijection with the normal paths (`normal_iff`), `parent` drops the last name
(`parent_render`), and the prefix tests of the file system are prefix tests on names
(`within_render_iff`, `above_render_iff`).
-/

namespace Aeterna.Vfs

abbrev Path := List Char

def rootPath : Path := ['/']

/-! ## The functions of the source -/

/-- The loop that pops trailing slashes off a string of more than one character, on the reversed
string. -/
def popSlashes : List Char → List Char
  | '/' :: c :: cs => popSlashes (c :: cs)
  | cs => cs

def normalize (path : Path) : Path :=
  if path = [] ∨ path = rootPath then rootPath
  else
    let p := if path.head? = some '/' then path else '/' :: path
    (popSlashes p.reverse).reverse

/-- The position of the last `c`. -/
def rfind (c : Char) (path : Path) : Option ℕ :=
  (path.reverse.findIdx? (· == c)).map fun i => path.length - 1 - i

def filename (path : Path) : Path :=
  match rfind '/' path with
  | some pos => if pos < path.length - 1 then path.drop (pos + 1) else path
  | none => path

def parent (path : Path) : Path :=
  if path = rootPath then rootPath
  else match rfind '/' path with
  | some 0 => rootPath
  | some pos => path.take pos
  | none => rootPath

/-- `path` with a slash behind it, as the prefix of what lies below. -/
def asPrefix (path : Path) : Path := path ++ ['/']

/-! ## Normal paths -/

/-- The normal form: a slash first, no empty component, no slash last. -/
def Normal (path : Path) : Prop :=
  path = rootPath ∨
    path.head? = some '/' ∧ ¬ ['/', '/'] <:+: path ∧ path.getLast? ≠ some '/'

instance (path : Path) : Decidable (Normal path) := inferInstanceAs (Decidable (_ ∨ _))

/-- A name in a path. -/
abbrev Component := { name : List Char // name ≠ [] ∧ '/' ∉ name }

/-- The names, each after a slash. -/
def spell (cs : List Component) : Path := cs.flatMap fun c => '/' :: c.val

def render (cs : List Component) : Path := if cs = [] then rootPath else spell cs

@[simp] theorem spell_nil : spell [] = [] := rfl

@[simp] theorem spell_cons (c : Component) (cs : List Component) :
    spell (c :: cs) = '/' :: (c.val ++ spell cs) := rfl

@[simp] theorem spell_append (cs ds : List Component) : spell (cs ++ ds) = spell cs ++ spell ds :=
  List.flatMap_append

@[simp] theorem render_nil : render [] = rootPath := rfl

theorem render_of_ne_nil {cs : List Component} (h : cs ≠ []) : render cs = spell cs := if_neg h

theorem render_append {cs : List Component} (h : cs ≠ []) (ds : List Component) :
    render (cs ++ ds) = render cs ++ spell ds := by
  rw [render_of_ne_nil h, render_of_ne_nil (by simp [h]), spell_append]

theorem append_eq_append_of_slash {c d : List Char} {x y : Path} (hc : '/' ∉ c) (hd : '/' ∉ d)
    (hx : x = [] ∨ x.head? = some '/') (hy : y = [] ∨ y.head? = some '/')
    (h : c ++ x = d ++ y) : c = d ∧ x = y := by
  induction c generalizing d with
  | nil =>
    cases d with
    | nil => exact ⟨rfl, h⟩
    | cons a d =>
      subst h
      simp only [List.cons_append, List.head?_cons, reduceCtorEq, Option.some.injEq,
        false_or] at hx
      exact absurd (hx ▸ List.mem_cons_self) hd
  | cons a c ih =>
    cases d with
    | nil =>
      subst h
      simp only [List.cons_append, List.head?_cons, reduceCtorEq, Option.some.injEq,
        false_or] at hy
      exact absurd (hy ▸ List.mem_cons_self) hc
    | cons b d =>
      simp only [List.cons_append, List.cons.injEq] at h
      obtain ⟨rfl, h⟩ := h
      obtain ⟨rfl, rfl⟩ := ih (fun hm => hc (List.mem_cons_of_mem _ hm))
        (fun hm => hd (List.mem_cons_of_mem _ hm)) h
      exact ⟨rfl, rfl⟩

theorem spell_slash (cs : List Component) : spell cs = [] ∨ (spell cs).head? = some '/' := by
  cases cs with
  | nil => exact Or.inl rfl
  | cons c cs => exact Or.inr rfl

theorem spell_prefix {cs ds : List Component} {x : Path} (hx : x = [] ∨ x.head? = some '/')
    (h : spell cs ++ x = spell ds) : ∃ es, ds = cs ++ es ∧ x = spell es := by
  induction cs generalizing ds with
  | nil => exact ⟨ds, rfl, h⟩
  | cons c cs ih =>
    cases ds with
    | nil => simp at h
    | cons d ds =>
      simp only [spell_cons, List.cons_append, List.cons.injEq, true_and, List.append_assoc] at h
      have hx' : spell cs ++ x = [] ∨ (spell cs ++ x).head? = some '/' := by
        rcases spell_slash cs with hs | hs
        · rwa [hs]
        · right
          cases hc : spell cs with
          | nil => simp [hc] at hs
          | cons a as => rw [hc] at hs; exact hs
      obtain ⟨hcd, hrest⟩ :=
        append_eq_append_of_slash c.property.2 d.property.2 hx' (spell_slash ds) h
      obtain ⟨es, rfl, rfl⟩ := ih hrest
      exact ⟨es, by rw [Subtype.ext hcd, List.cons_append], rfl⟩

theorem spell_injective {cs ds : List Component} (h : spell cs = spell ds) : cs = ds := by
  have h' : spell cs ++ [] = spell ds := by rw [List.append_nil, h]
  obtain ⟨es, rfl, he⟩ := spell_prefix (Or.inl rfl) h'
  cases es with
  | nil => simp
  | cons e es => simp at he

theorem spell_ne_root (cs : List Component) : spell cs ≠ rootPath := by
  cases cs with
  | nil => simp [rootPath]
  | cons c cs =>
    intro h
    simp only [spell_cons, rootPath, List.cons.injEq, true_and, List.append_eq_nil_iff] at h
    exact c.property.1 h.1

theorem render_injective {cs ds : List Component} (h : render cs = render ds) : cs = ds := by
  unfold render at h
  split_ifs at h with hc hd hd
  · rw [hc, hd]
  · exact absurd h.symm (spell_ne_root ds)
  · exact absurd h (spell_ne_root cs)
  · exact spell_injective h

theorem render_eq_root {cs : List Component} : render cs = rootPath ↔ cs = [] := by
  constructor
  · intro h
    exact render_injective h
  · rintro rfl
    rfl

/-! ## Normal paths are the spelled ones -/

/-- Cuts a string without empty components into names; `acc` is the name read so far. -/
theorem exists_spell (acc : List Char) (rest : Path) (hacc : acc ≠ []) (hslash : '/' ∉ acc)
    (hempty : ¬ ['/', '/'] <:+: rest) (hlast : rest.getLast? ≠ some '/') :
    ∃ cs, '/' :: (acc ++ rest) = spell cs := by
  match rest with
  | [] => exact ⟨[⟨acc, hacc, hslash⟩], by simp⟩
  | a :: rest =>
    by_cases ha : a = '/'
    · subst ha
      match rest with
      | [] => simp at hlast
      | b :: rest =>
        have hb : b ≠ '/' := by
          rintro rfl
          exact hempty (List.prefix_append ['/', '/'] rest).isInfix
        have hrest : (b :: rest) <:+ '/' :: b :: rest := List.suffix_cons _ _
        obtain ⟨cs, hcs⟩ := exists_spell [b] rest (by simp) (by simp [Ne.symm hb])
          (fun h => hempty (h.trans ((List.suffix_cons b rest).trans hrest).isInfix))
          (fun h => hlast (by simp [List.getLast?_cons, h]))
        exact ⟨⟨acc, hacc, hslash⟩ :: cs, by rw [spell_cons, ← hcs]; rfl⟩
    · obtain ⟨cs, hcs⟩ := exists_spell (acc ++ [a]) rest (by simp)
        (by simp [hslash, Ne.symm ha])
        (fun h => hempty (h.trans (List.suffix_cons a rest).isInfix))
        (fun h => hlast (by simp [List.getLast?_cons, h]))
      exact ⟨cs, by rw [← hcs, List.append_assoc]; rfl⟩

theorem slashes_infix_of_append {c : List Char} {x : Path} (hc : '/' ∉ c)
    (h : ['/', '/'] <:+: c ++ x) : ['/', '/'] <:+: x := by
  induction c with
  | nil => exact h
  | cons a c ih =>
    rcases List.infix_cons_iff.mp h with h | h
    · obtain ⟨rfl, -⟩ := List.cons_prefix_cons.mp h
      simp at hc
    · exact ih (fun hm => hc (List.mem_cons_of_mem a hm)) h

theorem not_slashes_infix_spell (cs : List Component) : ¬ ['/', '/'] <:+: spell cs := by
  induction cs with
  | nil => simp
  | cons c cs ih =>
    obtain ⟨name, hne, hslash⟩ := c
    intro h
    rcases List.infix_cons_iff.mp h with h | h
    · obtain ⟨-, h⟩ := List.cons_prefix_cons.mp h
      cases name with
      | nil => exact hne rfl
      | cons a name =>
        obtain ⟨rfl, -⟩ := List.cons_prefix_cons.mp h
        simp at hslash
    · exact ih (slashes_infix_of_append hslash h)

theorem getLast_spell_ne (cs : List Component) : (spell cs).getLast? ≠ some '/' := by
  induction cs using List.reverseRecOn with
  | nil => simp
  | append_singleton cs c _ =>
    obtain ⟨name, hne, hslash⟩ := c
    intro h
    rw [spell_append, spell_cons, spell_nil, List.append_nil,
      List.getLast?_append_of_ne_nil _ (by simp), List.getLast?_cons,
      List.getLast?_eq_some_getLast hne] at h
    simp only [Option.some.injEq] at h
    exact hslash (h ▸ List.getLast_mem hne)

theorem normal_iff {path : Path} : Normal path ↔ ∃ cs, path = render cs := by
  constructor
  · rintro (rfl | ⟨hhead, hempty, hlast⟩)
    · exact ⟨[], rfl⟩
    · match path with
      | [] => simp at hhead
      | [a] => simp_all
      | a :: b :: rest =>
        obtain rfl : a = '/' := by simpa using hhead
        have hb : b ≠ '/' := by
          rintro rfl
          exact hempty (List.prefix_append ['/', '/'] rest).isInfix
        obtain ⟨cs, hcs⟩ := exists_spell [b] rest (by simp) (by simp [Ne.symm hb])
          (fun h => hempty
            (h.trans ((List.suffix_cons b rest).trans (List.suffix_cons '/' _)).isInfix))
          (fun h => hlast (by simp [List.getLast?_cons, h]))
        refine ⟨cs, ?_⟩
        rw [render_of_ne_nil (by rintro rfl; simp at hcs), ← hcs]
        rfl
  · rintro ⟨cs, rfl⟩
    by_cases hcs : cs = []
    · exact Or.inl (by rw [hcs]; rfl)
    · rw [render_of_ne_nil hcs]
      refine Or.inr ⟨(spell_slash cs).resolve_left ?_, not_slashes_infix_spell cs,
        getLast_spell_ne cs⟩
      intro h
      exact hcs (spell_injective (h.trans spell_nil.symm))

theorem normal_render (cs : List Component) : Normal (render cs) := normal_iff.mpr ⟨cs, rfl⟩

theorem Normal.ne_nil {path : Path} (h : Normal path) : path ≠ [] := by
  rintro rfl
  revert h
  decide

theorem Normal.head? {path : Path} (h : Normal path) : path.head? = some '/' := by
  rcases h with rfl | ⟨hhead, -⟩
  · rfl
  · exact hhead

theorem Normal.of_suffix {path rest : Path} (h : Normal path) (hs : rest <:+ path)
    (hhead : rest.head? = some '/') : Normal rest := by
  have hne : rest ≠ [] := by
    rintro rfl
    cases hhead
  rcases h with rfl | ⟨-, hempty, hlast⟩
  · refine Or.inl (hs.eq_of_length_le ?_)
    exact List.length_pos_iff.mpr hne
  · refine Or.inr ⟨hhead, fun hi => hempty (hi.trans hs.isInfix), ?_⟩
    obtain ⟨before, rfl⟩ := hs
    rwa [List.getLast?_append_of_ne_nil _ hne] at hlast

theorem normal_root : Normal rootPath := Or.inl rfl

theorem not_normal_nil : ¬ Normal [] := by decide

theorem popSlashes_ne_nil {cs : List Char} (h : cs ≠ []) : popSlashes cs ≠ [] := by
  fun_induction popSlashes cs with
  | case1 c cs ih => exact ih (by simp)
  | case2 cs _ => exact h

/-! ## What `normalize` does to a string -/

def withSlash (path : Path) : Path := if path.head? = some '/' then path else '/' :: path

/-- The string without the slashes behind it, but for the only one. -/
def trimSlashes (path : Path) : Path := (popSlashes path.reverse).reverse

theorem normalize_eq (path : Path) : normalize path = trimSlashes (withSlash path) := by
  unfold normalize
  split
  case isTrue h =>
    rcases h with rfl | rfl <;> rfl
  case isFalse => rfl

theorem head?_withSlash (path : Path) : (withSlash path).head? = some '/' := by
  unfold withSlash
  split
  case isTrue h => exact h
  case isFalse => rfl

theorem exists_replicate_popSlashes (cs : List Char) :
    ∃ n, cs = List.replicate n '/' ++ popSlashes cs := by
  fun_induction popSlashes cs with
  | case1 c cs ih =>
    obtain ⟨n, hn⟩ := ih
    refine ⟨n + 1, ?_⟩
    rw [List.replicate_succ, List.cons_append, ← hn]
  | case2 cs => exact ⟨0, rfl⟩

theorem exists_replicate_trimSlashes (path : Path) :
    ∃ n, path = trimSlashes path ++ List.replicate n '/' := by
  obtain ⟨n, hn⟩ := exists_replicate_popSlashes path.reverse
  refine ⟨n, ?_⟩
  unfold trimSlashes
  rw [← List.reverse_replicate, ← List.reverse_append, ← hn, List.reverse_reverse]

theorem trimSlashes_isPrefix (path : Path) : trimSlashes path <+: path := by
  obtain ⟨n, hn⟩ := exists_replicate_trimSlashes path
  exact ⟨_, hn.symm⟩

theorem trimSlashes_ne_nil {path : Path} (h : path ≠ []) : trimSlashes path ≠ [] := by
  unfold trimSlashes
  rw [Ne, List.reverse_eq_nil_iff]
  apply popSlashes_ne_nil
  rwa [Ne, List.reverse_eq_nil_iff]

theorem prefix_trimSlashes {u path : Path} (hu : u <+: path) (hlast : u.getLast? ≠ some '/') :
    u <+: trimSlashes path := by
  rcases List.prefix_or_prefix_of_prefix hu (trimSlashes_isPrefix path) with h | ⟨s, rfl⟩
  · exact h
  · obtain ⟨n, hn⟩ := exists_replicate_trimSlashes path
    obtain ⟨r, hr⟩ := hu
    rw [List.append_assoc] at hr
    have hslash : s ++ r = List.replicate n '/' := List.append_cancel_left (hr.trans hn)
    rcases List.eq_nil_or_concat s with rfl | ⟨t, c, rfl⟩
    · rw [List.append_nil]
    · have hc : c ∈ List.replicate n '/' := by
        rw [← hslash]
        simp
      refine absurd ?_ hlast
      rw [(List.mem_replicate.mp hc).2, List.concat_eq_append, ← List.append_assoc,
        List.getLast?_concat]

theorem head?_normalize (path : Path) : (normalize path).head? = some '/' := by
  have hne : withSlash path ≠ [] := fun h => by
    have := head?_withSlash path
    rw [h] at this
    cases this
  obtain ⟨c, cs, hc⟩ := List.exists_cons_of_ne_nil (trimSlashes_ne_nil hne)
  obtain ⟨s, hs⟩ := trimSlashes_isPrefix (withSlash path)
  have hhead := head?_withSlash path
  rw [← hs, hc] at hhead
  rw [normalize_eq, hc]
  exact hhead

theorem normalize_of_absolute {path : Path} (hhead : path.head? = some '/')
    (hlast : path.getLast? ≠ some '/') : normalize path = path := by
  have hslash : withSlash path = path := if_pos hhead
  rw [normalize_eq, hslash]
  exact (trimSlashes_isPrefix path).eq_of_length_le
    (prefix_trimSlashes List.prefix_rfl hlast).length_le

theorem normalize_of_normal {path : Path} (h : Normal path) : normalize path = path := by
  rcases h with rfl | ⟨hhead, -, hlast⟩
  · decide
  · exact normalize_of_absolute hhead hlast

theorem normalize_ne_nil (path : Path) : normalize path ≠ [] := by
  intro h
  have hhead := head?_normalize path
  rw [h] at hhead
  cases hhead

/-! ## Parents and prefixes -/

theorem findIdx?_append_self {c : Char} {name rest : List Char} (h : c ∉ name) :
    (name ++ c :: rest).findIdx? (· == c) = some name.length := by
  induction name with
  | nil => simp [List.findIdx?_cons]
  | cons a name ih =>
    rw [List.mem_cons, not_or] at h
    rw [List.cons_append, List.findIdx?_cons, if_neg (by simpa using Ne.symm h.1), ih h.2]
    rfl

theorem rfind_append {c : Char} {path name : List Char} (h : c ∉ name) :
    rfind c (path ++ c :: name) = some path.length := by
  have hrev : (path ++ c :: name).reverse = name.reverse ++ c :: path.reverse := by simp
  unfold rfind
  rw [hrev, findIdx?_append_self (by simpa using h)]
  simp

theorem parent_render (cs : List Component) (c : Component) :
    parent (render (cs ++ [c])) = render cs := by
  have hspell : render (cs ++ [c]) = spell cs ++ '/' :: c.val := by
    rw [render_of_ne_nil (by simp)]
    simp
  have htake : (spell cs ++ '/' :: c.val).take (spell cs).length = spell cs := List.take_left
  unfold parent
  rw [if_neg (by rw [render_eq_root]; simp), hspell, rfind_append c.property.2]
  cases cs with
  | nil => rfl
  | cons d ds => exact htake

/-- `p` is a proper ancestor of `k`. -/
def Above (p k : Path) : Prop := p ≠ k ∧ (p = rootPath ∨ asPrefix p <+: k)

instance (p k : Path) : Decidable (Above p k) := inferInstanceAs (Decidable (_ ∧ _))

/-- `k` is `p` or starts with `p` and a slash. -/
def Within (p k : Path) : Prop := k = p ∨ asPrefix p <+: k

instance (p k : Path) : Decidable (Within p k) := inferInstanceAs (Decidable (_ ∨ _))

theorem within_self (p : Path) : Within p p := Or.inl rfl

theorem within_append_iff {p s : Path} :
    Within p (p ++ s) ↔ s = [] ∨ s.head? = some '/' := by
  rw [Within, asPrefix]
  cases s with
  | nil => simp
  | cons c s => simp [eq_comm]

theorem Within.exists_append {p k : Path} (h : Within p k) : ∃ s, k = p ++ s := by
  rcases h with rfl | ⟨x, rfl⟩
  · exact ⟨[], by simp⟩
  · exact ⟨'/' :: x, by simp [asPrefix]⟩

theorem asPrefix_spell_iff {cs ds : List Component} :
    asPrefix (spell cs) <+: spell ds ↔ ∃ es, es ≠ [] ∧ ds = cs ++ es := by
  constructor
  · rintro ⟨x, hx⟩
    rw [asPrefix, List.append_assoc] at hx
    obtain ⟨es, rfl, hes⟩ := spell_prefix (Or.inr rfl) hx
    exact ⟨es, by rintro rfl; simp at hes, rfl⟩
  · rintro ⟨es, hes, rfl⟩
    obtain ⟨e, es', rfl⟩ := List.exists_cons_of_ne_nil hes
    exact ⟨e.val ++ spell es', by simp [asPrefix]⟩

theorem normal_of_asPrefix {p k : Path} (hk : Normal k) (hp : p ≠ []) (h : asPrefix p <+: k) :
    Normal p := by
  obtain ⟨c, cs, rfl⟩ := List.exists_cons_of_ne_nil hp
  have hpk : (c :: cs) <+: k := (List.prefix_append _ ['/']).trans h
  rcases hk with rfl | ⟨hhead, hempty, -⟩
  · have hlen := h.length_le
    simp [asPrefix, rootPath] at hlen
  · refine Or.inr ⟨?_, fun hi => hempty (hi.trans hpk.isInfix), fun hlast => hempty ?_⟩
    · obtain ⟨rest, rfl⟩ := hpk
      exact hhead
    · obtain ⟨init, hinit⟩ := List.getLast?_eq_some_iff.mp hlast
      rw [asPrefix, hinit, List.append_assoc] at h
      exact (List.suffix_append init ['/', '/']).isInfix.trans h.isInfix

theorem not_asPrefix_root {k : Path} (hk : Normal k) : ¬ asPrefix rootPath <+: k := by
  intro h
  rcases hk with rfl | ⟨-, hempty, -⟩
  · have hlen := h.length_le
    simp [asPrefix, rootPath] at hlen
  · exact hempty h.isInfix

theorem Within.trans {p k l : Path} (hpk : Within p k) (hkl : Within k l) : Within p l := by
  rcases hkl with rfl | ⟨x, rfl⟩
  · exact hpk
  obtain ⟨s, rfl⟩ := hpk.exists_append
  rw [asPrefix, List.append_assoc, List.append_assoc, within_append_iff]
  rcases within_append_iff.mp hpk with rfl | hs
  · simp
  · exact Or.inr (by rw [List.head?_append, hs]; rfl)

theorem eq_root_of_within_root {p : Path} (hp : p ≠ []) (hw : Within p rootPath) :
    p = rootPath := by
  rcases hw with he | hpre
  · exact he.symm
  · have hlen := hpre.length_le
    have hpos := List.length_pos_iff.mpr hp
    rw [asPrefix, List.length_append, rootPath] at hlen
    omega

theorem Within.total {p q k : Path} (hp : Within p k) (hq : Within q k) :
    Within p q ∨ Within q p := by
  obtain ⟨s, rfl⟩ := hp.exists_append
  obtain ⟨t, he⟩ := hq.exists_append
  rcases List.append_eq_append_iff.mp he with ⟨u, rfl, rfl⟩ | ⟨u, rfl, rfl⟩
  · refine Or.inl (within_append_iff.mpr ?_)
    cases u with
    | nil => exact Or.inl rfl
    | cons c u => exact Or.inr (by simpa using within_append_iff.mp hp)
  · rw [he] at hq
    refine Or.inr (within_append_iff.mpr ?_)
    cases u with
    | nil => exact Or.inl rfl
    | cons c u => exact Or.inr (by simpa using within_append_iff.mp hq)

theorem asPrefix_parent {p : Path} (h : parent p ≠ rootPath) : asPrefix (parent p) <+: p := by
  unfold parent at h ⊢
  split_ifs at h ⊢ with hp
  · exact absurd rfl h
  cases hr : rfind '/' p with
  | none => simp [hr] at h
  | some pos =>
    have hslash : p[pos]? = some '/' := by
      obtain ⟨i, hi, rfl⟩ := Option.map_eq_some_iff.mp hr
      obtain ⟨hlt, hc, -⟩ := List.findIdx?_eq_some_iff_getElem.mp hi
      rw [List.length_reverse] at hlt
      rw [List.getElem?_eq_getElem (by omega)]
      exact congrArg some (by simpa using hc)
    have htake : asPrefix (p.take pos) = p.take (pos + 1) := by
      rw [List.take_add_one, hslash]
      rfl
    cases pos with
    | zero => simp [hr] at h
    | succ pos =>
      show asPrefix (p.take (pos + 1)) <+: p
      rw [htake]
      exact ⟨_, p.take_append_drop _⟩

theorem within_render_iff {cs ds : List Component} (hcs : cs ≠ []) :
    Within (render cs) (render ds) ↔ cs <+: ds := by
  constructor
  · rintro (h | h)
    · rw [render_injective h]
    · by_cases hds : ds = []
      · subst hds
        have hlen := h.length_le
        rw [render_of_ne_nil hcs] at hlen
        obtain ⟨c, cs', rfl⟩ := List.exists_cons_of_ne_nil hcs
        simp [asPrefix, rootPath] at hlen
      · rw [render_of_ne_nil hcs, render_of_ne_nil hds] at h
        obtain ⟨es, -, rfl⟩ := asPrefix_spell_iff.mp h
        exact List.prefix_append cs es
  · rintro ⟨es, rfl⟩
    by_cases hes : es = []
    · left
      rw [hes, List.append_nil]
    · right
      rw [render_of_ne_nil hcs, render_of_ne_nil (by simp [hcs])]
      exact asPrefix_spell_iff.mpr ⟨es, hes, rfl⟩

theorem above_of_asPrefix {p k : Path} (h : asPrefix p <+: k) : Above p k := by
  refine ⟨?_, Or.inr h⟩
  rintro rfl
  have hlen := h.length_le
  rw [asPrefix, List.length_append, List.length_singleton] at hlen
  omega

theorem Above.asPrefix {p k : Path} (h : Above p k) (hp : p ≠ rootPath) : asPrefix p <+: k :=
  h.2.resolve_left hp

theorem above_render_iff {cs ds : List Component} :
    Above (render cs) (render ds) ↔ Lib.PathTree.Above cs ds := by
  unfold Above Lib.PathTree.Above
  by_cases hcs : cs = []
  · subst hcs
    simp only [render_nil, true_or, and_true, List.nil_prefix, true_and]
    rw [Ne, eq_comm, render_eq_root, eq_comm]
  · have hne : render cs ≠ render ds ↔ cs ≠ ds :=
      not_congr ⟨render_injective, fun h => by rw [h]⟩
    have hroot : render cs ≠ rootPath := fun h => hcs (render_eq_root.mp h)
    rw [hne, or_iff_right hroot, and_comm, ← within_render_iff hcs]
    constructor
    · rintro ⟨h, hd⟩
      exact ⟨Or.inr h, hd⟩
    · rintro ⟨h, hd⟩
      exact ⟨h.resolve_left fun he => hd (render_injective he).symm, hd⟩

end Aeterna.Vfs
