import Aeterna.Lib.Run
import Mathlib.Data.List.FinRange
import Mathlib.Data.List.Induction
import Mathlib.Logic.Function.Basic

/-!
# The ARP cache

`cache_lookup` and `cache_update` of `net/arp.rs`, with the tick at which they run. Under a clock
that does not run backwards an address has at most one valid entry, and what is found is what the
last update supplied, less than 3000 ticks ago (`cache_sound`).
-/

namespace Aeterna.Net.Arp

open Lib

abbrev Ip := Vector UInt8 4

abbrev Mac := Vector UInt8 6

def arpTtlTicks : UInt64 := 3000

structure Entry where
  valid : Bool
  ip : Ip
  mac : Mac
  stamp : UInt64

/-- The table, and the counter for the slot of the next insertion. -/
structure ArpCache where
  entries : Fin 16 → Entry
  next : UInt64

def ArpCache.init : ArpCache := ⟨fun _ => ⟨false, .replicate 4 0, .replicate 6 0, 0⟩, 0⟩

/-- The loop of a lookup; an entry that has expired becomes invalid on the way. -/
def lookupLoop (now : UInt64) (ip : Ip) : List (Fin 16) → (Fin 16 → Entry) →
    Option Mac × (Fin 16 → Entry)
  | [], entries => (none, entries)
  | i :: is, entries =>
    if (entries i).valid ∧ (entries i).ip = ip then
      if now - (entries i).stamp < arpTtlTicks then (some (entries i).mac, entries)
      else lookupLoop now ip is (Function.update entries i { entries i with valid := false })
    else lookupLoop now ip is entries

def cacheLookup (now : UInt64) (ip : Ip) (s : ArpCache) : Option Mac × ArpCache :=
  let r := lookupLoop now ip (List.finRange 16) s.entries
  (r.1, { s with entries := r.2 })

def cacheUpdate (now : UInt64) (ip : Ip) (mac : Mac) (s : ArpCache) : ArpCache :=
  match (List.finRange 16).find? fun i => (s.entries i).valid ∧ (s.entries i).ip = ip with
  | some i =>
    { s with entries := Function.update s.entries i { s.entries i with mac := mac, stamp := now } }
  | none =>
    let slot := Fin.ofNat 16 s.next.toNat
    ⟨Function.update s.entries slot ⟨true, ip, mac, now⟩, s.next + 1⟩

/-! ## Runs -/

inductive Call where
  | lookup (now : UInt64) (ip : Ip)
  | update (now : UInt64) (ip : Ip) (mac : Mac)

def Call.now : Call → UInt64
  | lookup now _ => now
  | update now _ _ => now

def step (s : ArpCache) : Call → ArpCache
  | .lookup now ip => (cacheLookup now ip s).2
  | .update now ip mac => cacheUpdate now ip mac s

/-- What an update supplies for an address, and when. -/
def Call.supplied (ip : Ip) : Call → Option (Mac × UInt64)
  | lookup _ _ => none
  | update now ip' mac => if ip' = ip then some (mac, now) else none

def lastUpdate (calls : List Call) (ip : Ip) : Option (Mac × UInt64) :=
  calls.reverse.findSome? (Call.supplied ip)

def OneEntryPerIp (s : ArpCache) : Prop :=
  ∀ i j, (s.entries i).valid → (s.entries j).valid → (s.entries i).ip = (s.entries j).ip → i = j

/-- Every valid entry is from the last update for its address. -/
def FromLast (calls : List Call) (s : ArpCache) : Prop :=
  ∀ i, (s.entries i).valid →
    lastUpdate calls (s.entries i).ip = some ((s.entries i).mac, (s.entries i).stamp)

theorem lastUpdate_concat (calls : List Call) (call : Call) (ip : Ip) :
    lastUpdate (calls ++ [call]) ip = (call.supplied ip).or (lastUpdate calls ip) := by
  rw [lastUpdate, List.reverse_concat, List.findSome?_cons, lastUpdate]
  cases call.supplied ip <;> rfl

theorem mem_of_lastUpdate {calls : List Call} {ip : Ip} {mac : Mac} {t : UInt64}
    (h : lastUpdate calls ip = some (mac, t)) : t ∈ calls.map Call.now := by
  obtain ⟨call, hmem, hcall⟩ := List.exists_of_findSome?_eq_some h
  refine List.mem_map.mpr ⟨call, List.mem_reverse.mp hmem, ?_⟩
  cases call with
  | lookup _ _ => cases hcall
  | update now ip' mac' =>
    rw [Call.supplied] at hcall
    split_ifs at hcall
    cases hcall
    rfl

/-! ## One call -/

theorem lookupLoop_entries (now : UInt64) (ip : Ip) (is : List (Fin 16)) (entries : Fin 16 → Entry)
    {j : Fin 16} (h : ((lookupLoop now ip is entries).2 j).valid) :
    (lookupLoop now ip is entries).2 j = entries j := by
  induction is generalizing entries with
  | nil => rfl
  | cons i is ih =>
    rw [lookupLoop] at h ⊢
    split_ifs at h ⊢ with hmatch hfresh
    · rfl
    · have hj := ih _ h
      rw [hj] at h ⊢
      by_cases hji : j = i
      · rw [hji, Function.update_self] at h
        cases h
      · rw [Function.update_of_ne hji]
    · exact ih _ h

theorem lookupLoop_some {now : UInt64} {ip : Ip} {is : List (Fin 16)} {entries : Fin 16 → Entry}
    {mac : Mac} (h : (lookupLoop now ip is entries).1 = some mac) :
    ∃ i, (entries i).valid ∧ (entries i).ip = ip ∧ (entries i).mac = mac ∧
      now - (entries i).stamp < arpTtlTicks := by
  induction is generalizing entries with
  | nil => cases h
  | cons i is ih =>
    rw [lookupLoop] at h
    split_ifs at h with hmatch hfresh
    · exact ⟨i, hmatch.1, hmatch.2, Option.some.inj h, hfresh⟩
    · obtain ⟨j, hj⟩ := ih h
      by_cases hji : j = i
      · rw [hji, Function.update_self] at hj
        cases hj.1
      · rw [Function.update_of_ne hji] at hj
        exact ⟨j, hj⟩
    · exact ih h

theorem cacheUpdate_entries (now : UInt64) (ip : Ip) (mac : Mac) {s : ArpCache}
    (h : OneEntryPerIp s) :
    ∃ i, (cacheUpdate now ip mac s).entries = Function.update s.entries i ⟨true, ip, mac, now⟩ ∧
      ∀ j, j ≠ i → (s.entries j).valid → (s.entries j).ip ≠ ip := by
  unfold cacheUpdate
  cases hfind : (List.finRange 16).find? fun i => (s.entries i).valid ∧ (s.entries i).ip = ip with
  | none =>
    refine ⟨_, rfl, fun j _ hvalid hip => ?_⟩
    have hnone := List.find?_eq_none.mp hfind j (List.mem_finRange j)
    exact hnone (decide_eq_true ⟨hvalid, hip⟩)
  | some i =>
    have hmatch := List.find?_some hfind
    obtain ⟨hvalid, hip⟩ := of_decide_eq_true hmatch
    refine ⟨i, ?_, fun j hj hvalid' hip' => hj (h j i hvalid' hvalid (hip'.trans hip.symm))⟩
    dsimp only
    rw [hvalid, hip]

/-- A valid entry after a call is an old one that the call does not supply, or the one that it
supplies, which then is the only one for its address. -/
theorem step_cases {s : ArpCache} (h : OneEntryPerIp s) (call : Call) {i : Fin 16}
    (hi : ((step s call).entries i).valid) :
    (step s call).entries i = s.entries i ∧ call.supplied (s.entries i).ip = none ∨
      ∃ now ip mac, call = .update now ip mac ∧
        (step s call).entries i = ⟨true, ip, mac, now⟩ ∧
        ∀ j, j ≠ i → ((step s call).entries j).valid → ((step s call).entries j).ip ≠ ip := by
  cases call with
  | lookup now ip => exact Or.inl ⟨lookupLoop_entries now ip _ _ hi, rfl⟩
  | update now ip mac =>
    obtain ⟨k, hentries, hother⟩ := cacheUpdate_entries now ip mac h
    rw [show (step s (.update now ip mac)).entries = _ from hentries] at hi ⊢
    by_cases hik : i = k
    · subst hik
      refine Or.inr ⟨now, ip, mac, rfl, Function.update_self _ _ _, fun j hj => ?_⟩
      rw [Function.update_of_ne hj]
      exact hother j hj
    · rw [Function.update_of_ne hik] at hi ⊢
      exact Or.inl ⟨rfl, if_neg (hother i hik hi).symm⟩

theorem oneEntryPerIp_step {s : ArpCache} (h : OneEntryPerIp s) (call : Call) :
    OneEntryPerIp (step s call) := by
  intro i j hi hj hip
  rcases step_cases h call hi with ⟨hold, -⟩ | ⟨now, ip, mac, -, hnew, honly⟩
  · rcases step_cases h call hj with ⟨hold', -⟩ | ⟨now, ip, mac, -, hnew, honly⟩
    · rw [hold] at hi hip
      rw [hold'] at hj hip
      exact h i j hi hj hip
    · rw [hnew] at hip
      by_contra hij
      exact honly i hij hi hip
  · rw [hnew] at hip
    by_contra hij
    exact honly j (Ne.symm hij) hj hip.symm

theorem fromLast_step {calls : List Call} {s : ArpCache} (h : OneEntryPerIp s)
    (hlast : FromLast calls s) (call : Call) : FromLast (calls ++ [call]) (step s call) := by
  intro i hi
  rw [lastUpdate_concat]
  rcases step_cases h call hi with ⟨hold, hnone⟩ | ⟨now, ip, mac, rfl, hnew, -⟩
  · rw [hold] at hi ⊢
    rw [hnone, hlast i hi]
    rfl
  · rw [hnew, Call.supplied, if_pos rfl]
    rfl

/-! ## Soundness -/

theorem always_oneEntryPerIp (calls : List Call) : Always step OneEntryPerIp .init calls :=
  always_of_eachStep (G := fun _ _ => True) (fun _ _ hi => by cases hi)
    (fun _ call h _ => oneEntryPerIp_step h call) (eachStep_of_forall_mem fun _ _ => trivial)

theorem fromLast_run (calls : List Call) : FromLast calls (run step .init calls) := by
  induction calls using List.reverseRecOn with
  | nil =>
    intro i hi
    cases hi
  | append_singleton calls call ih =>
    rw [run_append]
    exact fromLast_step (always_oneEntryPerIp calls).last ih call

/-- **Soundness of the cache.** An address has at most one valid entry at any time; a lookup finds
only what the last update for its address supplied, less than 3000 ticks ago. -/
theorem cache_sound (calls : List Call) (now : UInt64)
    (hclock : (calls.map Call.now ++ [now]).Pairwise (· ≤ ·)) :
    Always step OneEntryPerIp .init calls ∧
      ∀ ip mac, (cacheLookup now ip (run step .init calls)).1 = some mac →
        ∃ t, lastUpdate calls ip = some (mac, t) ∧ t ≤ now ∧ now.toNat < t.toNat + 3000 := by
  refine ⟨always_oneEntryPerIp calls, fun ip mac hfound => ?_⟩
  obtain ⟨i, hvalid, rfl, rfl, hfresh⟩ := lookupLoop_some hfound
  have hlast := fromLast_run calls i hvalid
  have hle : ((run step .init calls).entries i).stamp ≤ now :=
    (List.pairwise_append.mp hclock).2.2 _ (mem_of_lastUpdate hlast) now (List.mem_singleton_self now)
  refine ⟨_, hlast, hle, ?_⟩
  have hdiff := UInt64.lt_iff_toNat_lt.mp hfresh
  rw [UInt64.toNat_sub_of_le _ _ hle] at hdiff
  have hle' := UInt64.le_iff_toNat_le.mp hle
  rw [arpTtlTicks] at hdiff
  change _ < 3000 at hdiff
  omega

theorem cache_sound_fresh : ∃ t, lastUpdate [.update 5 (.replicate 4 1) (.replicate 6 2)]
    (.replicate 4 1) = some (.replicate 6 2, t) ∧ t ≤ 8 ∧ (8 : UInt64).toNat < t.toNat + 3000 :=
  (cache_sound [.update 5 (.replicate 4 1) (.replicate 6 2)] 8 (by decide)).2 _ _ (by decide)

end Aeterna.Net.Arp
