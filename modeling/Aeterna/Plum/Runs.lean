import Aeterna.Plum.Script

/-!
# Runs of the script interpreter

Blocks execute only lines after their header, so that a run with as much fuel as there are lines
comes to an end: it returns a later position, or it is stopped by something it noted (`Ends`,
`ends_execLine`). What stops it is a header that is sliced at a position found in its lower-case
copy, or an expansion.

* `returns_iff_sliced`: where expansion has a value, the execution of a script returns from every
  position and state when the headers of all lines can be sliced.
* `not_slice_of_events`: a run does not stop at a slice when its headers can be sliced and no text
  that is scanned has an open expression whose last byte is not a character.
-/

namespace Aeterna.Plum

variable {Env α β : Type} (sh : Shell Env)

/-! ## Positions -/

theorem skipHead_suffix (word : Text) (ends : List Text) (lines : Lines) :
    skipHead sh word ends lines <:+ lines := by
  cases lines with
  | nil => exact List.suffix_rfl
  | cons line rest =>
    rw [skipHead]
    split_ifs
    · exact List.suffix_cons line rest
    · exact List.suffix_rfl

theorem scanLoop_suffix (depth : ℕ) (lines : Lines) : scanLoop sh depth lines <:+ lines := by
  induction lines generalizing depth with
  | nil => exact List.suffix_rfl
  | cons line rest ih =>
    have hrest : ∀ depth, scanLoop sh depth rest <:+ line :: rest := fun depth =>
      (ih depth).trans (List.suffix_cons line rest)
    rw [scanLoop]
    split_ifs <;> first | exact List.suffix_rfl | exact hrest _

theorem scanIf_suffix (depth : ℕ) (inElse : Bool) (lines : Lines) :
    (∀ p ∈ (scanIf sh depth inElse lines).1 ++ (scanIf sh depth inElse lines).2.1,
      p <:+ lines ∧ p ≠ []) ∧ (scanIf sh depth inElse lines).2.2 <:+ lines := by
  induction lines generalizing depth inElse with
  | nil => exact ⟨by simp [scanIf], List.suffix_rfl⟩
  | cons line rest ih =>
    have hstep := List.suffix_cons line rest
    have hrest : ∀ depth inElse,
        (∀ p ∈ (scanIf sh depth inElse rest).1 ++ (scanIf sh depth inElse rest).2.1,
          p <:+ line :: rest ∧ p ≠ []) ∧ (scanIf sh depth inElse rest).2.2 <:+ line :: rest :=
      fun depth inElse => ⟨fun p hp => ⟨((ih depth inElse).1 p hp).1.trans hstep,
        ((ih depth inElse).1 p hp).2⟩, (ih depth inElse).2.trans hstep⟩
    have hself : line :: rest <:+ line :: rest ∧ line :: rest ≠ [] :=
      ⟨List.suffix_rfl, List.cons_ne_nil _ _⟩
    rw [scanIf]
    dsimp only
    generalize (if "if ".toList.isPrefixOf (lowered sh line) = true ∨
      lowered sh line = "if".toList then depth + 1 else depth) = inner
    split
    · exact ⟨by simp, hstep⟩
    · generalize (if lowered sh line = "fi".toList then inner - 1 else inner) = after
      split
      · exact hrest _ _
      · split
        · refine ⟨fun p hp => ?_, (hrest _ _).2⟩
          rw [List.mem_append, List.mem_cons] at hp
          obtain hp | rfl | hp := hp
          · exact (hrest _ _).1 p (List.mem_append_left _ hp)
          · exact hself
          · exact (hrest _ _).1 p (List.mem_append_right _ hp)
        · refine ⟨fun p hp => ?_, (hrest _ _).2⟩
          rw [List.cons_append, List.mem_cons] at hp
          obtain rfl | hp := hp
          · exact hself
          · exact (hrest _ _).1 p hp

theorem afterBrace_suffix (line : Text) (rest : Lines) : afterBrace (line :: rest) <:+ rest := by
  induction rest generalizing line with
  | nil =>
    unfold afterBrace
    split_ifs <;> exact List.suffix_rfl
  | cons next rest ih =>
    unfold afterBrace
    split_ifs
    · exact List.suffix_rfl
    · exact (ih next).trans (List.suffix_cons next rest)

theorem scanFunction_suffix (depth : ℕ) (lines : Lines) :
    (scanFunction depth lines).2 <:+ lines := by
  induction lines generalizing depth with
  | nil => exact List.suffix_rfl
  | cons line rest ih =>
    unfold scanFunction
    dsimp only
    split_ifs
    · exact List.suffix_rfl
    · exact (ih _).trans (List.suffix_cons line rest)

/-! ## How a run ends -/

/-- The header of the line can be sliced. -/
def Action.sliced : Action → Bool
  | .cond text => text.isSome
  | .whileLoop text => text.isSome
  | .forLoop text => text.isSome
  | .exit arg => arg.isSome
  | .ret arg => arg.isSome
  | _ => true

/-- What stops a run. -/
def Event.Causes : Event → Halt → Prop
  | .header raw, .slice => (action sh raw).sliced = false
  | .expand v t, .expansion e => sh.expand v t = .error e
  | _, _ => False

/-- Headers are headers of some lines. -/
def Event.Of (lines : Lines) : Event → Prop
  | .header raw => ∃ line ∈ lines, trim line = raw
  | .expand _ _ => True

/-- A run over some lines has a result with a property, or was stopped by what it noted last. -/
def Ends (lines : Lines) (x : Run α) (post : α → Prop) : Prop :=
  (∀ e ∈ x.events, e.Of lines) ∧
    match x.result with
    | .ok a => post a
    | .error h => ∃ e ∈ x.events, e.Causes sh h

section Ends

variable {sh} {lines : Lines}

theorem Ends.pure {a : α} {post : α → Prop} (h : post a) : Ends sh lines (Pure.pure a) post :=
  ⟨fun _ he => absurd he List.not_mem_nil, h⟩

theorem Ends.bind {x : Run α} {f : α → Run β} {mid : α → Prop} {post : β → Prop}
    (hx : Ends sh lines x mid) (hf : ∀ a, mid a → Ends sh lines (f a) post) :
    Ends sh lines (x >>= f) post := by
  obtain ⟨hevents, hresult⟩ := hx
  obtain ⟨events, result⟩ := x
  cases result with
  | error h => exact ⟨hevents, hresult⟩
  | ok a =>
    obtain ⟨hevents', hresult'⟩ := hf a hresult
    refine ⟨fun e he => (List.mem_append.mp he).elim (hevents e) (hevents' e), ?_⟩
    show match (f a).result with | .ok b => post b | .error h => _
    cases hr : (f a).result with
    | ok b =>
      rw [hr] at hresult'
      exact hresult'
    | error h =>
      rw [hr] at hresult'
      obtain ⟨e, he, hcause⟩ := hresult'
      exact ⟨e, List.mem_append_right _ he, hcause⟩

theorem Ends.mono {x : Run α} {post post' : α → Prop} {lines' : Lines} (hx : Ends sh lines x post)
    (hlines : lines ⊆ lines') (h : ∀ a, post a → post' a) : Ends sh lines' x post' := by
  obtain ⟨hevents, hresult⟩ := hx
  refine ⟨fun e he => ?_, ?_⟩
  · have hof := hevents e he
    cases e with
    | expand v t => exact trivial
    | header raw =>
      obtain ⟨line, hline, heq⟩ := hof
      exact ⟨line, hlines hline, heq⟩
  · cases hr : x.result with
    | ok a =>
      rw [hr] at hresult
      exact h a hresult
    | error e =>
      rw [hr] at hresult
      exact hresult

theorem Ends.causes {x : Run α} {post : α → Prop} (h : Ends sh lines x post) {stop : Halt}
    (hr : x.result = .error stop) : ∃ e ∈ x.events, e.Causes sh stop := by
  obtain ⟨-, hresult⟩ := h
  rw [hr] at hresult
  exact hresult

theorem Ends.ite {c : Prop} [Decidable c] {x y : Run α} {post : α → Prop}
    (hx : c → Ends sh lines x post) (hy : ¬ c → Ends sh lines y post) :
    Ends sh lines (if c then x else y) post := by
  split_ifs with h
  · exact hx h
  · exact hy h

theorem ends_header {raw : Text} {text : Option α} (hline : ∃ line ∈ lines, trim line = raw)
    (hsliced : (action sh raw).sliced = text.isSome) :
    Ends sh lines (header raw text) fun _ => True := by
  have hof : ∀ e ∈ [Event.header raw], e.Of lines := fun e he => by
    obtain rfl := List.mem_singleton.mp he
    exact hline
  cases text with
  | some a => exact ⟨hof, trivial⟩
  | none => exact ⟨hof, _, List.mem_cons_self, hsliced⟩

theorem ends_expandIn (s : ExecState Env) (t : Text) :
    Ends sh lines (expandIn sh s t) fun _ => True := by
  refine ⟨fun e he => ?_, ?_⟩
  · obtain rfl := List.mem_singleton.mp he
    exact trivial
  · unfold expandIn
    dsimp only
    cases h : sh.expand ⟨s.locals, sh.getenv s.env, s.exitCode⟩ t with
    | ok r => exact trivial
    | error e => exact ⟨_, List.mem_cons_self, h⟩

theorem ends_evalCondition (s : ExecState Env) (cond : Text) :
    Ends sh lines (evalCondition sh s cond) fun _ => True := by
  unfold evalCondition
  refine Ends.ite (fun _ => .pure trivial) fun _ => ?_
  split
  · exact (ends_expandIn s _).bind fun _ _ => .pure trivial
  · exact (ends_expandIn s _).bind fun _ _ => (ends_expandIn s _).bind fun _ _ => .pure trivial
  · exact .pure trivial

end Ends

/-! ## Commands -/

theorem notMem_of_splitOnce {c : Char} {t : Text} (h : splitOnce [c] t = none) : c ∉ t := by
  induction t with
  | nil => exact List.not_mem_nil
  | cons d t ih =>
    unfold splitOnce at h
    split_ifs at h with hpat
    have hne : c ≠ d := fun heq => hpat (by simp [heq])
    exact List.not_mem_cons_of_ne_of_not_mem hne (ih (Option.map_eq_none_iff.mp h))

theorem length_splitN {n : ℕ} {t part : Text} (h : part ∈ splitN n t) : part.length ≤ t.length := by
  fun_induction splitN n t with
  | case1 => exact absurd h List.not_mem_nil
  | case2 t => rw [List.mem_singleton.mp h]
  | case3 n t before after hsplit ih =>
    have hlen := congrArg List.length (splitOnce_eq hsplit)
    rw [List.length_append, List.length_append] at hlen
    obtain rfl | h := List.mem_cons.mp h
    · omega
    · have hle := ih h
      omega
  | case4 n t hsplit => rw [List.mem_singleton.mp h]

theorem length_splitN_lt {n : ℕ} {t part : Text} (ht : ';' ∈ t) (h : part ∈ splitN (n + 2) t) :
    part.length < t.length := by
  rw [splitN] at h
  split at h
  case h_1 before after hsplit =>
    have hlen := congrArg List.length (splitOnce_eq hsplit)
    rw [List.length_append, List.length_append, List.length_singleton] at hlen
    obtain rfl | h := List.mem_cons.mp h
    · omega
    · have hle := length_splitN h
      omega
  case h_2 hnone => exact absurd ht (notMem_of_splitOnce hnone)

section Blocks

variable {sh} {lines : Lines}

theorem Ends.foldlM {f : β → α → Run β} {xs : List α} (h : ∀ x ∈ xs, ∀ b,
    Ends sh lines (f b x) fun _ => True) (b : β) : Ends sh lines (xs.foldlM f b) fun _ => True := by
  induction xs generalizing b with
  | nil => exact .pure trivial
  | cons x xs ih =>
    exact (h x List.mem_cons_self b).bind fun b _ =>
      ih (fun y hy => h y (List.mem_cons_of_mem _ hy)) b

theorem ends_execCommand {fuel : ℕ} {cmd : Text} (h : cmd.length < fuel) (s : ExecState Env) :
    Ends sh lines (execCommand sh fuel cmd s) fun _ => True := by
  induction fuel generalizing cmd s with
  | zero => exact absurd h (Nat.not_lt_zero _)
  | succ fuel ih =>
    rw [execCommand]
    refine Ends.ite (fun hsemi => Ends.foldlM (fun part hpart s => ?_) s) fun _ => ?_
    · have hlt := length_splitN_lt hsemi hpart
      have hle := length_trim part
      exact .ite (fun _ => .pure trivial) fun _ => ih (by omega) s
    · refine .ite (fun _ => ?_) fun _ => .pure trivial
      split <;> exact .pure trivial

/-! ## Blocks -/

variable {exec : Exec Env}

theorem ends_runEach {ps : List Lines}
    (h : ∀ p ∈ ps, ∀ s, Ends sh lines (exec p s) fun _ => True) (s : ExecState Env) :
    Ends sh lines (runEach exec ps s) fun _ => True := by
  induction ps generalizing s with
  | nil => exact .pure trivial
  | cons p ps ih =>
    exact (h p List.mem_cons_self s).bind fun r _ => .ite (fun _ => .pure trivial) fun _ =>
      ih (fun q hq => h q (List.mem_cons_of_mem _ hq)) r.1

theorem ends_runTo {start : Lines}
    (h : ∀ p, p <:+ start → p ≠ [] → ∀ s, Ends sh lines (exec p s) fun r => r.2 <:+ p.tail)
    {stop fuel : ℕ} (hfuel : start.length ≤ fuel) (s : ExecState Env) :
    Ends sh lines (runTo exec stop fuel start s) fun _ => True := by
  induction fuel generalizing start s with
  | zero =>
    rw [runTo, if_neg (by omega)]
    exact .pure trivial
  | succ fuel ih =>
    rw [runTo]
    refine .ite (fun hstop => ?_) fun _ => .pure trivial
    have hne : start ≠ [] := List.ne_nil_of_length_pos (by omega)
    refine (h start List.suffix_rfl hne s).bind fun r hr => .ite (fun _ => .pure trivial) fun _ => ?_
    have hle := hr.length_le
    rw [List.length_tail] at hle
    exact ih (fun p hp => h p (hp.trans (hr.trans (List.tail_suffix _)))) (by omega) r.1

theorem ends_forLoop {body : ExecState Env → Run (ExecState Env)}
    (h : ∀ s, Ends sh lines (body s) fun _ => True) (var : Text) (items : List Text)
    (s : ExecState Env) : Ends sh lines (forLoop sh body var items s) fun _ => True := by
  induction items generalizing s with
  | nil => exact .pure trivial
  | cons item items ih =>
    exact (h _).bind fun r _ => .ite (fun _ => .pure trivial) fun _ => ih r

theorem ends_whileLoop {body : ExecState Env → Run (ExecState Env)}
    (h : ∀ s, Ends sh lines (body s) fun _ => True) (text : Text) (iters : ℕ) (s : ExecState Env) :
    Ends sh lines (whileLoop sh body text iters s) fun _ => True := by
  induction iters generalizing s with
  | zero => exact .pure trivial
  | succ iters ih =>
    refine (ends_expandIn s text).bind fun t _ => (ends_evalCondition s t).bind fun b _ => ?_
    exact .ite (fun _ => (h s).bind fun r _ => .ite (fun _ => .pure trivial) fun _ => ih r)
      fun _ => .pure trivial

section Perform

variable {line : Text} {rest : Lines}
  (hexec : ∀ p, p <:+ rest → p ≠ [] → ∀ s,
    Ends sh (line :: rest) (exec p s) fun r => r.2 <:+ p.tail)
include hexec

theorem ends_execIf (text : Text) (s : ExecState Env) :
    Ends sh (line :: rest) (execIf sh exec text rest s) fun r => r.2 <:+ rest := by
  have hstart := skipHead_suffix sh "then".toList ["; then".toList, ";then".toList] rest
  obtain ⟨hlines, hnext⟩ := scanIf_suffix sh 1 false
    (skipHead sh "then".toList ["; then".toList, ";then".toList] rest)
  have heach : ∀ p, p <:+ skipHead sh "then".toList ["; then".toList, ";then".toList] rest ∧ p ≠ [] →
      ∀ s, Ends sh (line :: rest) (exec p s) fun _ => True := fun p hp s =>
    (hexec p (hp.1.trans hstart) hp.2 s).mono (List.Subset.refl _) fun _ _ => trivial
  refine (ends_expandIn s _).bind fun cond _ => (ends_evalCondition s cond).bind fun b _ => ?_
  refine (ends_runEach (fun p hp s => ?_) s).bind fun s _ => .pure (hnext.trans hstart)
  split_ifs at hp
  · exact heach p (hlines p (List.mem_append_left _ hp)) s
  · exact heach p (hlines p (List.mem_append_right _ hp)) s

theorem ends_loop (word : Text) (ends : List Text) (s : ExecState Env) :
    Ends sh (line :: rest) (runTo exec
      (scanLoop sh 1 (skipHead sh word ends rest)).length (skipHead sh word ends rest).length
      (skipHead sh word ends rest) s) fun _ => True :=
  ends_runTo (fun p hp => hexec p (hp.trans (skipHead_suffix sh word ends rest))) le_rfl s

omit hexec in
theorem tail_scanLoop_suffix (word : Text) (ends : List Text) :
    (scanLoop sh 1 (skipHead sh word ends rest)).tail <:+ rest :=
  ((List.tail_suffix _).trans (scanLoop_suffix sh _ _)).trans (skipHead_suffix sh word ends rest)

theorem ends_perform (s : ExecState Env) :
    Ends sh (line :: rest) (perform sh exec line rest s (action sh (trim line)))
      fun r => r.2 <:+ rest := by
  have hline : ∃ l ∈ line :: rest, trim l = trim line := ⟨line, List.mem_cons_self, rfl⟩
  have hsliced : ∀ a, action sh (trim line) = a → (action sh (trim line)).sliced = a.sliced :=
    fun a ha => congrArg Action.sliced ha
  cases ha : action sh (trim line) with
  | skip => exact .pure List.suffix_rfl
  | define name =>
    exact .pure (((List.tail_suffix _).trans (scanFunction_suffix _ _)).trans
      (afterBrace_suffix line rest))
  | cond text =>
    exact (ends_header hline (hsliced _ ha)).bind fun t _ => ends_execIf hexec t s
  | whileLoop text =>
    refine (ends_header hline (hsliced _ ha)).bind fun t _ => ?_
    exact (ends_whileLoop (ends_loop hexec _ _) t maxIters s).bind fun s _ =>
      .pure (tail_scanLoop_suffix _ _)
  | forLoop text =>
    refine (ends_header hline (hsliced _ ha)).bind fun t _ => ?_
    cases t with
    | none => exact .pure List.suffix_rfl
    | some t =>
      refine (ends_expandIn s _).bind fun items _ => ?_
      exact (ends_forLoop (ends_loop hexec _ _) t.1 _ s).bind fun s _ =>
        .pure (tail_scanLoop_suffix _ _)
  | exit arg =>
    exact (ends_header hline (hsliced _ ha)).bind fun _ _ => .pure List.suffix_rfl
  | ret arg =>
    exact (ends_header hline (hsliced _ ha)).bind fun _ _ => .pure List.suffix_rfl
  | assign name value =>
    exact (ends_expandIn s _).bind fun _ _ => .pure List.suffix_rfl
  | command =>
    refine (ends_expandIn s _).bind fun cmd _ => ?_
    dsimp only
    have hblank : Ends sh (line :: rest) (pure s) fun _ => True := .pure trivial
    exact .ite (fun _ => hblank.bind fun _ _ => .pure List.suffix_rfl) fun _ =>
      (ends_execCommand (Nat.lt_succ_self _) s).bind fun _ _ => .pure List.suffix_rfl

end Perform

/-- A line is executed to the end: it leaves a later position, or it is stopped by what it noted. -/
theorem ends_execLine {fuel : ℕ} {lines : Lines} (hne : lines ≠ []) (hfuel : lines.length ≤ fuel)
    (s : ExecState Env) :
    Ends sh lines (execLine sh fuel lines s) fun r => r.2 <:+ lines.tail := by
  -- on the fuel: blocks execute lines after their header, which are fewer
  induction fuel generalizing lines s with
  | zero => exact absurd (List.length_eq_zero_iff.mp (Nat.le_zero.mp hfuel)) hne
  | succ fuel ih =>
    obtain ⟨line, rest, rfl⟩ := List.exists_cons_of_ne_nil hne
    rw [execLine]
    refine .ite (fun _ => .pure List.suffix_rfl) fun _ => ?_
    refine ends_perform (fun p hp hne s => ?_) s
    have hle := hp.length_le
    rw [List.length_cons] at hfuel
    exact (ih hne (by omega) s).mono (List.Subset.trans hp.subset (List.subset_cons_self _ _))
      fun _ h => h

theorem ends_execScript (lines : Lines) (s : ExecState Env) :
    Ends sh lines (execScript sh lines s) fun _ => True :=
  ends_runTo (fun _ hp hne s => (ends_execLine hne hp.length_le s).mono hp.subset fun _ h => h)
    le_rfl s

end Blocks

/-! ## Runs that return -/

section Returns

variable {sh}

/-- Where expansions have values and headers can be sliced, nothing stops a run. -/
theorem Ends.exists_ok (hexpand : ∀ v t, ∃ r, sh.expand v t = .ok r) {lines : Lines}
    (hsliced : ∀ line ∈ lines, (action sh (trim line)).sliced) {x : Run α} {post : α → Prop}
    (h : Ends sh lines x post) : ∃ a, x.result = .ok a ∧ post a := by
  cases hr : x.result with
  | ok a =>
    obtain ⟨-, hresult⟩ := h
    rw [hr] at hresult
    exact ⟨a, rfl, hresult⟩
  | error stop =>
    obtain ⟨e, he, hcause⟩ := h.causes hr
    have hof := h.1 e he
    cases e with
    | expand v t =>
      obtain ⟨r, hok⟩ := hexpand v t
      cases stop with
      | expansion e => exact absurd (hok.symm.trans hcause) (by simp)
      | slice | fuel => exact hcause.elim
    | header raw =>
      obtain ⟨line, hline, rfl⟩ := hof
      cases stop with
      | slice => exact absurd (hsliced line hline) (by rw [hcause]; decide)
      | expansion | fuel => exact hcause.elim

theorem perform_of_not_sliced {a : Action} (h : a.sliced = false) (exec : Exec Env) (line : Text)
    (rest : Lines) (s : ExecState Env) :
    (perform sh exec line rest s a).result = .error .slice := by
  cases a with
  | cond text | whileLoop text | forLoop text | exit text | ret text =>
    cases text with
    | none => rfl
    | some t => exact Bool.noConfusion h
  | _ => exact Bool.noConfusion h

theorem execLine_cons {s : ExecState Env} (hs : s.exitRequested = false) (fuel : ℕ) (line : Text)
    (rest : Lines) : execLine sh (fuel + 1) (line :: rest) s =
      perform sh (execLine sh fuel) line rest s (action sh (trim line)) := by
  rw [execLine, hs, if_neg Bool.false_ne_true]

/-- Where expansion has a value for every text, executing a line returns a later position, from
every line and in every state, and scripts end, when the headers of the lines can be sliced. -/
theorem returns_iff_sliced (hexpand : ∀ v t, ∃ r, sh.expand v t = .ok r) (env : Env)
    (lines : Lines) :
    ((∀ p, p <:+ lines → p ≠ [] → ∀ s : ExecState Env, ∃ s' rest,
        (execLine sh lines.length p s).result = .ok (s', rest) ∧ rest.length < p.length) ∧
      ∀ s : ExecState Env, ∃ s', (execScript sh lines s).result = .ok s') ↔
      ∀ line ∈ lines, (action sh (trim line)).sliced := by
  refine ⟨fun ⟨hreturns, _⟩ line hline => ?_, fun hsliced => ⟨fun p hp hne s => ?_, fun s => ?_⟩⟩
  · by_contra hnot
    obtain ⟨pre, rest, rfl⟩ := List.append_of_mem hline
    obtain ⟨s', next, hok, -⟩ := hreturns (line :: rest) (List.suffix_append _ _)
      (List.cons_ne_nil _ _) (ExecState.new env)
    obtain ⟨n, hn⟩ : ∃ n, (pre ++ line :: rest).length = n + 1 := ⟨_, by simp; rfl⟩
    rw [hn, execLine_cons rfl, perform_of_not_sliced (Bool.eq_false_of_not_eq_true hnot)] at hok
    cases hok
  · obtain ⟨⟨s', rest⟩, hok, hpost⟩ := Ends.exists_ok hexpand
      (fun line hline => hsliced line (hp.subset hline)) (ends_execLine hne hp.length_le s)
    refine ⟨s', rest, hok, hpost.length_le.trans_lt ?_⟩
    rw [List.length_tail]
    have hpos := List.length_pos_iff.mpr hne
    omega
  · obtain ⟨s', hok, -⟩ := Ends.exists_ok hexpand hsliced (ends_execScript lines s)
    exact ⟨s', hok⟩

/-- A shell without an environment; the lower case of the Kelvin sign is `k`. -/
def plainShell (expand : Vars → Text → Eval Text) : Shell Unit where
  lowercase t := t.map fun c => if c = '\u212A' then 'k' else c.toLower
  expand := expand
  getenv _ _ := none
  setenv _ _ _ := ()
  preprocess _ _ := ()
  fileExists _ _ := false

theorem returns_iff_sliced_if :
    ∃ s', (execScript (plainShell fun _ t => .ok t) ["if x; then".toList, "fi".toList]
      (ExecState.new ())).result = .ok s' :=
  ((returns_iff_sliced (fun _ t => ⟨t, rfl⟩) () ["if x; then".toList, "fi".toList]).mpr
    (by decide +kernel)).2 (ExecState.new ())

/-- The condition of the `if` is cut after the first byte of the Kelvin sign. -/
theorem not_returns_kelvin :
    (execLine (plainShell fun _ t => .ok t) 1 ["if \u212A; then".toList]
      (ExecState.new ())).result = .error .slice := by
  rw [execLine_cons rfl]
  exact perform_of_not_sliced (by decide +kernel) _ _ _ _

end Returns

/-! ## Runs that do not stop at a slice -/

section Slices

variable {v : Vars}

/-- Evaluating the first text as an expression scans the second. -/
inductive Scans (v : Vars) : Text → Text → Prop
  | self (t : Text) : Scans v t t
  | arith {t e u : Text} (he : Piece.arith e ∈ scan t) (h : Scans v e u) : Scans v t u
  | operand {t s a b c u : Text} {n : ℕ} {op : Char} (hs : expandVars n v t = .ok s)
    (hsplit : splitExpr (trim s) = some (op, a, b)) (hc : c = a ∨ c = b) (h : Scans v c u) :
    Scans v t u

/-- No text that is scanned when a text is expanded has an open expression whose last byte is not a
character. -/
def Uncut (v : Vars) (t : Text) : Prop :=
  Piece.cut ∉ scan t ∧ ∀ e, Piece.arith e ∈ scan t → ∀ u, Scans v e u → Piece.cut ∉ scan u

theorem ok_ne_slice (a : α) : (.ok a : Eval α) ≠ .error .slice := fun h => by cases h

theorem bind_ne_slice {x : Eval α} {f : α → Eval β} (hx : x ≠ .error .slice)
    (hf : ∀ a, x = .ok a → f a ≠ .error .slice) : x >>= f ≠ .error .slice := by
  cases x with
  | ok a => exact hf a rfl
  | error e => exact fun h => hx (by cases h; rfl)

theorem expandPieces_ne_slice {arith : Text → Eval ℤ} {ps : List Piece} (hcut : Piece.cut ∉ ps)
    (harith : ∀ e, Piece.arith e ∈ ps → arith e ≠ .error .slice) :
    expandPieces arith v ps ≠ .error .slice := by
  induction ps with
  | nil => exact ok_ne_slice _
  | cons p ps ih =>
    rw [List.mem_cons, not_or] at hcut
    have hp : expandPiece arith v p ≠ .error .slice := by
      cases p with
      | arith e => exact bind_ne_slice (harith e List.mem_cons_self) fun _ _ => ok_ne_slice _
      | cut => exact absurd rfl hcut.1
      | _ => exact ok_ne_slice _
    exact bind_ne_slice hp fun _ _ =>
      bind_ne_slice (ih hcut.2 fun e he => harith e (List.mem_cons_of_mem _ he)) fun _ _ =>
        ok_ne_slice _

theorem applyOp_ne_slice (op : Char) (l r : ℤ) : applyOp op l r ≠ .error .slice := by
  unfold applyOp
  split_ifs <;> exact fun h => by cases h

theorem evalArith_ne_slice {n : ℕ} {t : Text} (h : ∀ u, Scans v t u → Piece.cut ∉ scan u) :
    evalArith n v t ≠ .error .slice := by
  induction n generalizing t with
  | zero => exact fun h => by cases h
  | succ n ih =>
    refine bind_ne_slice (expandPieces_ne_slice (h t (.self t)) fun e he =>
      ih fun u hu => h u (.arith he hu)) fun s hs => ?_
    dsimp only
    split
    · rename_i op a b hsplit
      exact bind_ne_slice (ih fun u hu => h u (.operand hs hsplit (.inl rfl) hu)) fun l _ =>
        bind_ne_slice (ih fun u hu => h u (.operand hs hsplit (.inr rfl) hu)) fun r _ =>
          applyOp_ne_slice op l r
    · exact ok_ne_slice _

theorem expandVars_ne_slice {n : ℕ} {t : Text} (h : Uncut v t) :
    expandVars n v t ≠ .error .slice :=
  expandPieces_ne_slice h.1 fun e he => evalArith_ne_slice (h.2 e he)

/-- A header that can be sliced, or a text that is not cut. -/
def Event.Sound (sh : Shell Env) : Event → Prop
  | .header raw => (action sh raw).sliced
  | .expand v t => Uncut v t

theorem Ends.not_slice {sh : Shell Env} {n : ℕ} (hsh : sh.expand = expandVars n) {lines : Lines}
    {x : Run α} {post : α → Prop} (h : Ends sh lines x post) (hsound : ∀ e ∈ x.events, e.Sound sh) :
    x.result ≠ .error .slice ∧ x.result ≠ .error (.expansion .slice) := by
  constructor
  · intro hr
    obtain ⟨e, he, hcause⟩ := h.causes hr
    cases e with
    | expand v t => exact hcause.elim
    | header raw =>
      have hsliced : (action sh raw).sliced = true := hsound _ he
      exact absurd (hsliced.symm.trans hcause) Bool.noConfusion
  · intro hr
    obtain ⟨e, he, hcause⟩ := h.causes hr
    cases e with
    | header raw => exact hcause.elim
    | expand v t =>
      have huncut : Uncut v t := hsound _ he
      have herror : sh.expand v t = .error .slice := hcause
      rw [hsh] at herror
      exact expandVars_ne_slice huncut herror

end Slices

end Aeterna.Plum
