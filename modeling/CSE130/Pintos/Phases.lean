import CSE130.Library.Phases
import CSE130.Pintos.KernelStep

/-!
# Phases of threads

A protocol of the kernel, such as the use of a lock, takes a thread from phase to phase. The phase
of a thread is read off its stack, by a signature that gives the actions of the protocol their
phases. A step changes no phase but that of the running thread, and this only by an action of the
protocol that leaves nothing to do.
-/

namespace CSE130.Pintos

open CSE130.Library

universe u

variable {β : Type u} {sig : Action → Option (β × β)} {last : β}

/-- What an action leaves to do is in the phase before the action. -/
structure Phasing (sig : Action → Option (β × β)) : Prop where
  level : ∀ a, a.setsLevel = true → sig a = none
  startStack : ∀ function, ∀ b ∈ Sched.startStack function, sig b = none
  none : ∀ {a pushed}, Conts a pushed → sig a = none → ∀ b ∈ pushed, sig b = none
  some : ∀ {a pushed rest last before after}, Conts a pushed → pushed ≠ [] →
    sig a = some (before, after) → WellPhased sig last rest → phaseOf sig last rest = after →
    WellPhased sig last (pushed ++ rest) ∧ phaseOf sig last (pushed ++ rest) = before

theorem Phasing.levelOnly (h : Phasing sig) {ns : List Action} (hns : LevelOnly ns) :
    ∀ b ∈ ns, sig b = Option.none :=
  fun b hb => h.level b (hns b hb)

theorem WellPhased.act {a : Action} {ns pushed rest : List Action} (hsig : Phasing sig)
    (h : WellPhased sig last (a :: rest)) (hns : LevelOnly ns) (hconts : Conts a pushed) :
    WellPhased sig last (ns ++ pushed ++ rest) ∧
    (sig a = none ∨ pushed ≠ [] →
      phaseOf sig last (ns ++ pushed ++ rest) = phaseOf sig last (a :: rest)) ∧
    ∀ before after, pushed = [] → sig a = some (before, after) →
      phaseOf sig last (ns ++ pushed ++ rest) = after := by
  rw [List.append_assoc, phaseOf_append_none (hsig.levelOnly hns)]
  have hwell : ∀ {st}, WellPhased sig last st → WellPhased sig last (ns ++ st) :=
    fun hst => hst.append_none (hsig.levelOnly hns)
  cases ha : sig a with
  | none =>
    have hnone := hsig.none hconts ha
    refine ⟨hwell (h.2.append_none hnone), fun _ => ?_, fun _ _ _ hno => nomatch hno⟩
    rw [phaseOf_append_none hnone, phaseOf_cons_none ha]
  | some p =>
    obtain ⟨before, after⟩ := p
    have hafter := h.1 before after ha
    by_cases hpushed : pushed = []
    · subst hpushed
      refine ⟨hwell h.2, fun hno => ?_, ?_⟩
      · rcases hno with hno | hno
        · cases hno
        · exact absurd rfl hno
      · rintro _ _ - ⟨⟩
        exact hafter
    · obtain ⟨hwell', hphase⟩ := hsig.some hconts hpushed ha h.2 hafter
      refine ⟨hwell hwell', fun _ => ?_, fun _ _ hno => absurd hno hpushed⟩
      rw [hphase, phaseOf_cons_some ha]

namespace Kernel

variable {k k' : Kernel} {lab : Lab} {a : Action} {rest : List Action} {t : Tid}

/-- The stack of the running thread after an action. Nothing is left to do of a test of a semaphore
exactly when its value is positive. -/
theorem BlockInv.act_running (h : k.BlockInv) (hstack : k.stack k.running = a :: rest)
    (hk : k.step lab .act = .ok k') :
    ∃ ns pushed, LevelOnly ns ∧ Conts a pushed ∧ k'.stack k.running = ns ++ pushed ++ rest ∧
      ∀ s, (a = .semaphoreDown s ∨ ∃ old, a = .semaphoreRetest s old) →
        (pushed = [] ↔ (k.sema s).value ≠ 0) := by
  rcases (act_stack h.sched hstack hk).2 with ⟨ns, pushed, hns, hconts, heq⟩ | ⟨rfl, heq⟩
  · refine ⟨ns, pushed, hns, hconts, heq, ?_⟩
    intro s hs
    rcases act_retest h hstack hk with ⟨s', old, hnew, hvalue, ha, -, -⟩ | ⟨hno, hvalues⟩
    · have hsame : s = s' := by
        rcases hs with rfl | ⟨_, rfl⟩ <;> rcases ha with ha | ⟨_, ha⟩ <;> cases ha <;> rfl
      subst hsame
      refine iff_of_false ?_ (not_not.mpr hvalue)
      rintro rfl
      rw [hnew, List.append_nil] at heq
      have hmem : Action.semaphoreRetest s old ∈ ns := by
        cases ns with
        | nil =>
          have hlen := congrArg List.length heq
          simp at hlen
        | cons b ns =>
          rw [(List.cons.inj heq).1]
          exact List.mem_cons_self
      cases hns _ hmem
    · refine iff_of_true ?_ (hvalues s hs)
      rcases hs with rfl | ⟨old, rfl⟩
      · cases hconts with
        | done => rfl
        | down _ old => exact absurd (by simp [heq]) (hno s old)
      · cases hconts with
        | done => rfl
        | retest => exact absurd (by simp [heq]) (hno s old)
  · have hexit := (h.stackOk k.running).threadExit (by simp [hstack])
    rw [hstack, pending_cons_of_not_setsLevel rfl] at hexit
    cases hexit
    refine ⟨[], [], by simp [LevelOnly], .done _ rfl, heq, ?_⟩
    rintro s (hs | ⟨_, hs⟩) <;> cases hs

/-- The stacks of the other threads after an action. -/
theorem BlockInv.act_other (h : k.BlockInv) (hstack : k.stack k.running = a :: rest)
    (hk : k.step lab .act = .ok k') (ht : t ≠ k.running) :
    k'.stack t = k.stack t ∨ (k.thread t).magic = false ∧ k.stack t = [] ∧
      ∃ function, k'.stack t = Sched.startStack function := by
  rcases (act_stack h.sched hstack hk).1 t ht with heq | ⟨_, function, -, hfree, heq, -⟩
  · exact Or.inl heq
  · exact Or.inr ⟨hfree, h.page t hfree, function, heq⟩

/-- The other threads keep their phases. -/
theorem BlockInv.act_wellPhased_of_ne (hsig : Phasing sig) (h : k.BlockInv)
    (hstack : k.stack k.running = a :: rest) (hk : k.step lab .act = .ok k') (ht : t ≠ k.running)
    (hwell : WellPhased sig last (k.stack t)) :
    WellPhased sig last (k'.stack t) ∧
      phaseOf sig last (k'.stack t) = phaseOf sig last (k.stack t) := by
  rcases h.act_other hstack hk ht with heq | ⟨-, hempty, function, heq⟩
  · rw [heq]
    exact ⟨hwell, rfl⟩
  · rw [heq, hempty, phaseOf_of_none (hsig.startStack function)]
    exact ⟨.of_none (hsig.startStack function), rfl⟩

/-- The phases after a step that only adds actions on the interrupt level. -/
theorem quiet_wellPhased {woken : List Tid} {blocks : Prop} (hsig : Phasing sig)
    (h : Sched.Moves woken blocks [] k.sched k'.sched) (hwell : WellPhased sig last (k.stack t)) :
    WellPhased sig last (k'.stack t) ∧
      phaseOf sig last (k'.stack t) = phaseOf sig last (k.stack t) := by
  by_cases ht : t = k.running
  · subst ht
    obtain ⟨ns, hns, hstack⟩ := h.stackRunning
    rw [List.append_nil] at hstack
    rw [show k'.stack k.running = _ from hstack]
    exact ⟨hwell.append_none (hsig.levelOnly hns), phaseOf_append_none (hsig.levelOnly hns)⟩
  · rw [show k'.stack t = _ from h.stack t ht]
    exact ⟨hwell, rfl⟩

end Kernel

end CSE130.Pintos
