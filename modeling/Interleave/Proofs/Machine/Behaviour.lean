import Interleave.Proofs.Machine.System
import Mathlib.Data.Multiset.Basic

/-! # What an execution shows

The behaviour of an execution is its first error or, if there is none, the values that its stores left
at each address together with the values that its loads found (`Trace.behaviour`).

Equivalent runs end with the same core, and their events differ by swaps of neighbours that tell of
independent candidates (`Machine.reach_of_equivalent`).  Such swaps change neither the last store to
an address nor the loads, up to their order (`Event.Swaps.shown_eq`). -/

namespace Interleave

/-- What an execution shows. -/
inductive Behaviour where
  /-- Kind and site of the first error. -/
  | failed (kind : ErrorKind) (site : Option Site)
  /-- The last value stored at each address, and each load with its thread, position and value. -/
  | completed (stored : Addr → Option Int64) (loads : Multiset (Nat × Nat × Int64))

namespace Event

/-- The value that the event stores at an address. -/
def stored? (a : Addr) (e : Event) : Option Int64 :=
  match e.kind with
  | .store b v => if b = a then some v else none
  | _ => none

/-- The load that the event tells of. -/
def load? (e : Event) : Option (Nat × Nat × Int64) :=
  match e.kind with
  | .load _ v _ => some (e.site.thread, e.site.pc, v)
  | _ => none

/-- What the events of an execution without errors show. -/
def shown (es : List Event) : Behaviour :=
  .completed (fun a => (es.filterMap (stored? a)).getLast?) (Multiset.ofList (es.filterMap load?))

/-- Two neighbouring events that tell of independent candidates change places. -/
inductive Swaps : List Event → List Event → Prop
  | swap (u v : List Event) {e f : Event} (h : e.candidate.dependent f.candidate = false) :
      Swaps (u ++ e :: f :: v) (u ++ f :: e :: v)

theorem access_of_stored? {a : Addr} {e : Event} {v : Int64} (h : e.stored? a = some v) :
    e.candidate.access = .write a := by
  unfold stored? at h
  split at h
  · rename_i b w hkind
    split at h
    · rename_i hb
      rw [candidate, hkind, hb]
      rfl
    · cases h
  · cases h

/-- Of two events that tell of independent candidates at most one stores at an address. -/
theorem stored?_of_indep {e f : Event} (h : e.candidate.dependent f.candidate = false) (a : Addr) :
    e.stored? a = none ∨ f.stored? a = none := by
  cases he : e.stored? a with
  | none => exact .inl rfl
  | some v =>
      cases hf : f.stored? a with
      | none => exact .inr rfl
      | some w =>
          have hconflicts := (Candidate.of_indep h).1
          rw [access_of_stored? he, access_of_stored? hf] at hconflicts
          simp [Access.conflicts, Access.object, Access.isRead] at hconflicts

theorem Swaps.shown_eq {es es' : List Event} (h : Swaps es es') : shown es = shown es' := by
  obtain ⟨u, v, hi⟩ := h
  rename_i e f
  unfold shown
  congr 1
  · funext a
    congr 1
    rcases stored?_of_indep hi a with hnone | hnone <;> simp [List.filterMap_cons, hnone]
  · refine Multiset.coe_eq_coe.mpr (List.Perm.filterMap _ ?_)
    exact (List.Perm.swap f e v).append_left u

end Event

/-- What the execution of a trace shows. -/
def Trace.behaviour (t : Trace) : Behaviour :=
  match t.errors with
  | e :: _ => .failed e.kind e.site
  | [] => Event.shown t.events

/-! ### Equivalent runs -/

theorem Swap.exists_eq {v w : List Candidate} (h : Swap v w) :
    ∃ u c d x, v = u ++ c :: d :: x ∧ w = u ++ d :: c :: x ∧ c.dependent d = false := by
  induction h with
  | here x hi => exact ⟨[], _, _, x, rfl, rfl, hi⟩
  | there b _ ih =>
      obtain ⟨u, c, d, x, rfl, rfl, hi⟩ := ih
      exact ⟨b :: u, c, d, x, rfl, rfl, hi⟩

namespace Machine

variable {s : Setup} {m m' m₁ : Machine} {ps : List Proc} {p : Proc} {v w : List Candidate}

theorem reach_concat_eq_ok (h : m.reach s (ps ++ [p]) = .ok m') :
    ∃ c m₁, m.reach s ps = .ok m₁ ∧ m₁.Offered s c ∧ c.proc = p ∧ m₁.turn s p = .ok m' := by
  rw [reach_append] at h
  cases hm₁ : m.reach s ps with
  | error why =>
      rw [hm₁] at h
      cases h
  | ok m₁ =>
      rw [hm₁, ok_bind] at h
      obtain ⟨c, m₂, hc, hp, hturn, hnil⟩ := follow_cons_eq_ok h
      cases hnil
      exact ⟨c, m₁, rfl, hc, hp, hturn⟩

theorem events_turn {c : Candidate} (hm : m.Calm s) (hc : m.Offered s c)
    (hturn : m.turn s c.proc = .ok m') :
    ∃ e, e.candidate = c ∧ m'.events = m.events ++ [e] ∧ m'.errors = m.errors :=
  (moves_turn s).events hm hc hturn

theorem procs_events_reach (h : m.reach s ps = .ok m') :
    m'.events.map Event.proc = m.events.map Event.proc ++ ps ∧ m'.errors = m.errors := by
  induction ps using List.reverseRecOn generalizing m' with
  | nil =>
      rw [reach_nil] at h
      obtain ⟨-, log, rfl⟩ := rest_eq_ok h
      simp
  | append_singleton ps p ih =>
      obtain ⟨c, m₁, hm₁, hc, rfl, hturn⟩ := reach_concat_eq_ok h
      obtain ⟨e, rfl, hevents, herrors⟩ := events_turn (calm_reach hm₁) hc hturn
      obtain ⟨hprocs, herrors₁⟩ := ih hm₁
      refine ⟨?_, herrors.trans herrors₁⟩
      rw [hevents, List.map_append, hprocs, List.append_assoc]
      rfl

/-- Neighbouring turns that are independent can change places in a run. -/
theorem reach_of_swap (ho : Orderly s m) (h : Swap v w) (hv : IsRun (system s m).offers v)
    (hm₁ : m.reach s (procs v) = .ok m₁) :
    ∃ m₂, m.reach s (procs w) = .ok m₂ ∧ Alike s m₁ m₂ ∧ Event.Swaps m₁.events m₂.events := by
  obtain ⟨u, c, d, x, rfl, rfl, hi⟩ := h.exists_eq
  have hne := Candidate.proc_ne_of_indep hi
  have hi' := Candidate.dependent_comm_false hi
  obtain ⟨m₀, hm₀, hc⟩ := mem_offers_system.mp hv.offered
  have hd : d ∈ (system s m).offers (procs (u ++ [c])) := by
    rw [show u ++ c :: d :: x = (u ++ [c]) ++ d :: x by simp] at hv
    exact hv.offered
  obtain ⟨mc, hmc, hd⟩ := mem_offers_system.mp hd
  rw [procs_concat, reach_concat hm₀ hc] at hmc
  have hcalm := calm_reach hm₀
  have hcalmc := (moves_turn s).keeps m₀ mc _ hcalm hmc
  have hcd := (ho _ m₀ hm₀).numbers c d hc hne
  have hdc : m₀.Offered s d := (moves_turn s).offered_before hcalm hc hi hcd hmc hd
  have hcount := (ho _ m₀ hm₀).numbers d c hdc hne.symm
  obtain ⟨-, hchange⟩ := (moves_turn s).offered_behind hcalm hc hi hdc hcd hmc
  have hreach : m.reach s (procs (u ++ c :: d :: x)) =
      mc.turn s d.proc >>= fun m => m.follow s (procs x) := by
    rw [show procs (u ++ c :: d :: x) = procs u ++ ([c.proc] ++ ([d.proc] ++ procs x)) by simp,
      reach_append, hm₀, ok_bind, follow_append, follow_singleton hc, hmc, ok_bind, follow_append,
      follow_singleton hd]
  rw [hreach] at hm₁
  cases hmcd : mc.turn s d.proc with
  | error why =>
      rw [hmcd] at hm₁
      cases hm₁
  | ok mcd =>
      rw [hmcd, ok_bind] at hm₁
      obtain ⟨md, hmd⟩ : ∃ md, m₀.turn s d.proc = .ok md := by
        cases hmd : m₀.turn s d.proc with
        | ok md => exact ⟨md, rfl⟩
        | error why =>
            rw [(moves_turn s).error_iff hcalm, ← hchange, ← (moves_turn s).error_iff hcalmc,
              hmcd] at hmd
            cases hmd
      obtain ⟨hcd', -⟩ := (moves_turn s).offered_behind hcalm hdc hi' hc hcount hmd
      obtain ⟨_, mdc, e, f, h₁, hmdc, hcore, rfl, rfl, hevents, hevents'⟩ :=
        (moves_turn s).diamond hcalm hc hi hdc hcd hcount hmc hmd
      obtain rfl := Except.ok.inj (h₁.symm.trans hmcd)
      have halike : Alike s _ mdc := ⟨hcore, (moves_turn s).keeps mc _ _ hcalmc hmcd,
        (moves_turn s).keeps md _ _ ((moves_turn s).keeps m₀ md _ hcalm hmd) hmdc⟩
      have hreach' : m.reach s (procs (u ++ f.candidate :: e.candidate :: x)) =
          mdc.follow s (procs x) := by
        rw [show procs (u ++ f.candidate :: e.candidate :: x) =
            procs u ++ ([f.candidate.proc] ++ ([e.candidate.proc] ++ procs x)) by simp,
          reach_append, hm₀, ok_bind, follow_append, follow_singleton hdc, hmd, ok_bind,
          follow_append, follow_singleton hcd', hmdc, ok_bind]
      rcases follow_congr halike (procs x) with ⟨why, hwhy, -⟩ | ⟨m₂, m₂', seen, hm₂, hm₂', h₂, hev, hev'⟩
      · rw [hwhy] at hm₁
        cases hm₁
      · obtain rfl := Except.ok.inj (hm₂.symm.trans hm₁)
        refine ⟨m₂', hreach'.trans hm₂', h₂, ?_⟩
        rw [hev, hev', hevents, hevents', List.append_assoc, List.append_assoc]
        exact .swap m₀.events seen hi

/-- **Equivalent runs** end with the same core, and their events differ by swaps only. -/
theorem reach_of_equivalent (ho : Orderly s m) (hempty : ∀ th ∈ m.threads, th.buffer = [])
    (h : Equivalent v w) (hv : IsRun (system s m).offers v) (hm₁ : m.reach s (procs v) = .ok m₁) :
    ∃ m₂, m.reach s (procs w) = .ok m₂ ∧ Alike s m₁ m₂ ∧
      Relation.ReflTransGen Event.Swaps m₁.events m₂.events := by
  induction h with
  | refl => exact ⟨m₁, hm₁, ⟨rfl, calm_reach hm₁, calm_reach hm₁⟩, .refl⟩
  | tail hw hswap ih =>
      obtain ⟨m₂, hm₂, halike, hevents⟩ := ih
      have hlive := (ho.lawful hempty).same_of_equivalent (u := []) hw
        ⟨hv, fault_system_eq_none.mpr ⟨m₁, hm₁⟩⟩
      obtain ⟨m₃, hm₃, halike', hevents'⟩ := reach_of_swap ho hswap hlive.1.run hm₂
      exact ⟨m₃, hm₃, ⟨halike.core.trans halike'.core, halike.left, halike'.right⟩,
        hevents.tail hevents'⟩

end Machine

end Interleave
