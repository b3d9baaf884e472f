import Aeterna.Tomato.Database

/-!
# The order of installation

`resolve_deps` is a depth-first search whose result is also the set of packages it has visited. That
set is closed under dependencies and ordered by them at every call (`Ordered`); a call adds the
packages reachable from its own (`exists_resolveDeps`), by induction over the dependencies, which
have no cycle.
-/

namespace Aeterna.Tomato

open Relation

variable {pkgs : List Package}

/-- A dependency of `p` that is in the list. -/
def DependsOn (pkgs : List Package) (p q : Package) : Prop :=
  ∃ dep ∈ p.depends, lookup pkgs dep = some q

def Acyclic (pkgs : List Package) : Prop := ∀ p ∈ pkgs, ¬ TransGen (DependsOn pkgs) p p

theorem mem_of_lookup {name : Name} {p : Package} (h : lookup pkgs name = some p) : p ∈ pkgs :=
  List.mem_of_find?_eq_some h

theorem acyclic_of_rank (rank : Package → ℕ) (h : ∀ p ∈ pkgs, ∀ dep ∈ p.depends,
    ∀ q ∈ lookup pkgs dep, rank q < rank p) : Acyclic pkgs := by
  have hlt : ∀ {p q}, TransGen (DependsOn pkgs) p q → p ∈ pkgs → q ∈ pkgs ∧ rank q < rank p := by
    intro p q hpq hp
    induction hpq with
    | single hstep =>
      obtain ⟨dep, hdep, hq⟩ := hstep
      exact ⟨mem_of_lookup hq, h p hp dep hdep _ hq⟩
    | tail _ hstep ih =>
      obtain ⟨dep, hdep, hq⟩ := hstep
      exact ⟨mem_of_lookup hq, (h _ ih.1 dep hdep _ hq).trans ih.2⟩
  exact fun p hp hcycle => (hlt hcycle hp).2.false

/-- Packages of the list, each once and after its dependencies. -/
inductive Ordered (pkgs : List Package) : List Package → Prop
  | nil : Ordered pkgs []
  | concat {l : List Package} {p : Package} (hl : Ordered pkgs l) (hmem : p ∈ pkgs) (hnew : p ∉ l)
      (hdeps : ∀ q, DependsOn pkgs p q → q ∈ l) : Ordered pkgs (l ++ [p])

namespace Ordered

variable {l : List Package}

theorem subset (h : Ordered pkgs l) : ∀ p ∈ l, p ∈ pkgs := by
  induction h with
  | nil => exact fun _ h => absurd h List.not_mem_nil
  | concat _ hmem _ _ ih =>
    intro q hq
    rcases List.mem_append.mp hq with hq | hq
    · exact ih q hq
    · exact List.mem_singleton.mp hq ▸ hmem

theorem nodup (h : Ordered pkgs l) : l.Nodup := by
  induction h with
  | nil => exact List.nodup_nil
  | concat _ _ hnew _ ih =>
    refine List.nodup_append'.mpr ⟨ih, List.nodup_singleton _, fun q hq hq' => ?_⟩
    exact hnew (List.mem_singleton.mp hq' ▸ hq)

theorem mem_before (h : Ordered pkgs l) {before after : List Package} {p q : Package}
    (hl : l = before ++ p :: after) (hq : DependsOn pkgs p q) : q ∈ before := by
  induction h generalizing after with
  | nil => simp at hl
  | @concat l r _ _ _ hdeps ih =>
    rcases List.eq_nil_or_concat after with rfl | ⟨after, x, rfl⟩
    · obtain ⟨rfl, hr⟩ := List.append_inj' hl rfl
      obtain rfl : r = p := by simpa using hr
      exact hdeps q hq
    · rw [List.concat_eq_append, ← List.cons_append, ← List.append_assoc] at hl
      exact ih (List.append_inj' hl rfl).1

theorem mem_of_reachable (h : Ordered pkgs l) {p q : Package} (hp : p ∈ l)
    (hq : ReflTransGen (DependsOn pkgs) p q) : q ∈ l := by
  induction hq with
  | refl => exact hp
  | tail _ hstep ih =>
    obtain ⟨before, after, rfl⟩ := List.append_of_mem ih
    exact List.mem_append_left _ (h.mem_before rfl hstep)

theorem any_iff (h : Ordered pkgs l) (hnames : (pkgs.map (·.name)).Nodup) {p : Package}
    (hp : p ∈ pkgs) : (l.any fun q => q.name = p.name) = true ↔ p ∈ l := by
  rw [List.any_eq_true]
  constructor
  · rintro ⟨q, hq, hname⟩
    have heq : q = p := List.inj_on_of_nodup_map hnames (h.subset q hq) hp (by simpa using hname)
    exact heq ▸ hq
  · exact fun hp => ⟨p, hp, by simp⟩

end Ordered

/-- The call ends, with all fuels from some point on, and what it adds are the packages `S`. -/
def Adds (pkgs : List Package) (call : ℕ → List Package → Option (List Package)) (S : Set Package)
    (result : List Package) : Prop :=
  ∃ bound result', (∀ fuel ≥ bound, call fuel result = some result') ∧ Ordered pkgs result' ∧
    ∀ p, p ∈ result' ↔ p ∈ result ∨ p ∈ S

/-- The loop over dependencies, from what its calls do. -/
theorem adds_foldlM {deps : List Name} (hdeps : ∀ dep ∈ deps, ∀ q, lookup pkgs dep = some q →
      ∀ result, Ordered pkgs result →
        Adds pkgs (fun fuel => resolveDeps pkgs fuel q) {p | ReflTransGen (DependsOn pkgs) q p} result)
    {result : List Package} (hresult : Ordered pkgs result) :
    Adds pkgs (fun fuel => deps.foldlM (visitDep pkgs (resolveDeps pkgs fuel)))
      {p | ∃ dep ∈ deps, ∃ q, lookup pkgs dep = some q ∧ ReflTransGen (DependsOn pkgs) q p}
      result := by
  induction deps generalizing result with
  | nil => exact ⟨0, result, fun _ _ => rfl, hresult, fun p => by simp⟩
  | cons dep deps ih =>
    have hrest : ∀ d ∈ deps, d ∈ dep :: deps := fun d => List.mem_cons_of_mem dep
    cases hlookup : lookup pkgs dep with
    | none =>
      obtain ⟨bound, result', hrun, hordered, hmem⟩ := ih (fun d hd => hdeps d (hrest d hd)) hresult
      refine ⟨bound, result', fun fuel hfuel => ?_, hordered, fun p => ?_⟩
      · show (visitDep pkgs (resolveDeps pkgs fuel) result dep).bind _ = _
        rw [visitDep, hlookup]
        exact hrun fuel hfuel
      · simp [hmem, hlookup]
    | some q =>
      obtain ⟨bound₁, result₁, hrun₁, hordered₁, hmem₁⟩ :=
        hdeps dep List.mem_cons_self q hlookup result hresult
      obtain ⟨bound₂, result₂, hrun₂, hordered₂, hmem₂⟩ :=
        ih (fun d hd => hdeps d (hrest d hd)) hordered₁
      refine ⟨max bound₁ bound₂, result₂, fun fuel hfuel => ?_, hordered₂, fun p => ?_⟩
      · have hfirst := hrun₁ fuel (le_of_max_le_left hfuel)
        show (visitDep pkgs (resolveDeps pkgs fuel) result dep).bind _ = _
        rw [visitDep, hlookup]
        dsimp only at hfirst ⊢
        rw [hfirst]
        exact hrun₂ fuel (le_of_max_le_right hfuel)
      · simp [hmem₂, hmem₁, hlookup, or_assoc]

theorem Acyclic.wellFounded (h : Acyclic pkgs) :
    WellFounded fun a b : {p // p ∈ pkgs} => TransGen (DependsOn pkgs) b.1 a.1 := by
  have htrans : IsTrans {p // p ∈ pkgs} fun a b => TransGen (DependsOn pkgs) b.1 a.1 :=
    ⟨fun _ _ _ hab hbc => hbc.trans hab⟩
  have hirrefl : Std.Irrefl fun a b : {p // p ∈ pkgs} => TransGen (DependsOn pkgs) b.1 a.1 :=
    ⟨fun a => h a.1 a.2⟩
  exact Finite.wellFounded_of_trans_of_irrefl _

theorem exists_resolveDeps (hnames : (pkgs.map (·.name)).Nodup) (hacyclic : Acyclic pkgs)
    {pkg : Package} (hpkg : pkg ∈ pkgs) {result : List Package} (hresult : Ordered pkgs result) :
    Adds pkgs (fun fuel => resolveDeps pkgs fuel pkg)
      {p | ReflTransGen (DependsOn pkgs) pkg p} result := by
  have hall : ∀ a : {p // p ∈ pkgs}, ∀ result, Ordered pkgs result →
      Adds pkgs (fun fuel => resolveDeps pkgs fuel a.1) {p | ReflTransGen (DependsOn pkgs) a.1 p}
        result := by
    intro a
    induction a using hacyclic.wellFounded.induction with
    | _ a ih =>
      obtain ⟨pkg, hpkg⟩ := a
      intro result hresult
      by_cases hmem : pkg ∈ result
      · -- visited before, with all that it needs
        refine ⟨1, result, fun fuel hfuel => ?_, hresult, fun p => ?_⟩
        · obtain ⟨fuel, rfl⟩ := Nat.exists_eq_add_of_le' hfuel
          exact if_pos ((hresult.any_iff hnames hpkg).mpr hmem)
        · exact ⟨Or.inl, Or.rec id (hresult.mem_of_reachable hmem)⟩
      · have hdeps : ∀ dep ∈ pkg.depends, ∀ q, lookup pkgs dep = some q → ∀ result,
            Ordered pkgs result → Adds pkgs (fun fuel => resolveDeps pkgs fuel q)
              {p | ReflTransGen (DependsOn pkgs) q p} result := fun dep hdep q hq =>
          ih ⟨q, mem_of_lookup hq⟩ (TransGen.single ⟨dep, hdep, hq⟩)
        obtain ⟨bound, result', hrun, hordered, hmem'⟩ := adds_foldlM hdeps hresult
        have hreach : ∀ p, (∃ dep ∈ pkg.depends, ∃ q, lookup pkgs dep = some q ∧
            ReflTransGen (DependsOn pkgs) q p) ↔ TransGen (DependsOn pkgs) pkg p := fun p => by
          rw [TransGen.head'_iff]
          constructor
          · rintro ⟨dep, hdep, q, hq, hp⟩
            exact ⟨q, ⟨dep, hdep, hq⟩, hp⟩
          · rintro ⟨q, ⟨dep, hdep, hq⟩, hp⟩
            exact ⟨dep, hdep, q, hq, hp⟩
        have hmem'' : ∀ p, p ∈ result' ↔ p ∈ result ∨ TransGen (DependsOn pkgs) pkg p := fun p =>
          (hmem' p).trans (or_congr_right (hreach p))
        have hnew : pkg ∉ result' := fun h =>
          ((hmem'' pkg).mp h).elim hmem (hacyclic pkg hpkg)
        refine ⟨bound + 1, result' ++ [pkg], fun fuel hfuel => ?_, hordered.concat hpkg hnew
          fun q hq => (hmem'' q).mpr (Or.inr (TransGen.single hq)), fun p => ?_⟩
        · obtain ⟨fuel, rfl⟩ := Nat.exists_eq_add_of_le' (show 1 ≤ fuel by omega)
          show (if _ then _ else _) = _
          rw [if_neg fun h => hmem ((hresult.any_iff hnames hpkg).mp h)]
          show (pkg.depends.foldlM (visitDep pkgs (resolveDeps pkgs fuel)) result).map _ = _
          rw [show pkg.depends.foldlM (visitDep pkgs (resolveDeps pkgs fuel)) result = some result' from
            hrun fuel (by omega)]
          rfl
        · rw [List.mem_append, List.mem_singleton, hmem'', Set.mem_ofPred_eq,
            reflTransGen_iff_eq_or_transGen, or_assoc]
          exact or_congr_right or_comm
  exact hall ⟨pkg, hpkg⟩ result hresult

/-- The packages to install: the package and what it needs, each once and after its own
dependencies. -/
theorem resolveDeps_topological (hnames : (pkgs.map (·.name)).Nodup) (hacyclic : Acyclic pkgs)
    {pkg : Package} (hpkg : pkg ∈ pkgs) :
    ∃ bound order, (∀ fuel ≥ bound, resolveDeps pkgs fuel pkg [] = some order) ∧ order.Nodup ∧
      (∀ p, p ∈ order ↔ ReflTransGen (DependsOn pkgs) pkg p) ∧
      ∀ before p after, order = before ++ p :: after → ∀ q, DependsOn pkgs p q → q ∈ before := by
  obtain ⟨bound, order, hrun, hordered, hmem⟩ :=
    exists_resolveDeps hnames hacyclic hpkg Ordered.nil
  refine ⟨bound, order, hrun, hordered.nodup, fun p => ?_, fun before p after horder q hq =>
    hordered.mem_before horder hq⟩
  rw [hmem]
  simp

/-- The package that needs most of the others. -/
theorem resolveDeps_topological_base :
    ∃ bound order, (∀ fuel ≥ bound, resolveDeps builtinPackages fuel
      (builtinPackages.get ⟨7, by decide⟩) [] = some order) ∧ order.Nodup ∧
      (∀ p, p ∈ order ↔
        ReflTransGen (DependsOn builtinPackages) (builtinPackages.get ⟨7, by decide⟩) p) ∧
      ∀ before p after, order = before ++ p :: after →
        ∀ q, DependsOn builtinPackages p q → q ∈ before :=
  resolveDeps_topological (by decide +kernel)
    (acyclic_of_rank (fun p => if p.depends = [] then 0 else if "plum".toList ∈ p.depends then 2 else 1)
      (by decide +kernel)) (List.get_mem _ _)

end Aeterna.Tomato
