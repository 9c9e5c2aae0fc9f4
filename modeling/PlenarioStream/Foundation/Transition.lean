import Mathlib.Data.List.Basic
import Mathlib.Data.List.Infix
import Mathlib.Tactic.Common

/-!
Deterministic labelled transition systems and their finite runs. A run keeps
the state before every step together with the action taken there, so that a
condition on the steps and a property of the states reached can be compared.
Nothing here depends on a particular system.
-/

namespace Transition
universe u v
variable {σ : Type u} {α : Type v}

/-- An action that is not enabled in a state has no successor there. -/
structure System (σ : Type u) (α : Type v) where
  init : σ
  step : σ → α → Option σ

namespace System

/-- The history lists the state before each step and its action, oldest first. -/
inductive Run (S : System σ α) : List (σ × α) → σ → Prop
  | nil : Run S [] S.init
  | snoc {tr : List (σ × α)} {s s' : σ} {a : α} :
      Run S tr s → S.step s a = some s' → Run S (tr ++ [(s, a)]) s'

/-- The property holds in every state that the run passes, its end included. -/
def Always (S : System σ α) (Q : List (σ × α) → σ → Prop) (tr : List (σ × α)) : Prop :=
  ∀ p x, p <+: tr → S.Run p x → Q p x

/-- Runs the listed actions from a state, as far as they are enabled. -/
def exec (S : System σ α) (s : σ) : List α → Option (List (σ × α) × σ)
  | [] => some ([], s)
  | a :: as =>
      match S.step s a with
      | none => none
      | some s' => (exec S s' as).map fun r => ((s, a) :: r.1, r.2)

variable {S : System σ α}

theorem Run.eq_init {s : σ} (h : S.Run [] s) : s = S.init := by
  generalize ht : ([] : List (σ × α)) = tr at h
  cases h with
  | nil => rfl
  | snoc _ _ => simp at ht

theorem Run.snoc_inv {tr : List (σ × α)} {s t : σ} {a : α}
    (h : S.Run (tr ++ [(s, a)]) t) : S.Run tr s ∧ S.step s a = some t := by
  generalize ht : tr ++ [(s, a)] = full at h
  cases h with
  | nil => simp at ht
  | snoc hr hs =>
      obtain ⟨rfl, hlast⟩ := List.append_inj' ht rfl
      simp only [List.cons.injEq, Prod.mk.injEq, and_true] at hlast
      obtain ⟨rfl, rfl⟩ := hlast
      exact ⟨hr, hs⟩

theorem Run.unique {tr : List (σ × α)} {s t : σ} (h : S.Run tr s) (k : S.Run tr t) : s = t := by
  induction h with
  | nil => exact k.eq_init.symm
  | snoc _ hs _ =>
      have hk := k.snoc_inv.2
      rw [hs] at hk
      exact Option.some.inj hk

theorem Run.step_of_mem {tr : List (σ × α)} {s x : σ} {a : α} (h : S.Run tr s)
    (hx : (x, a) ∈ tr) :
    ∃ p y, S.Run p x ∧ S.step x a = some y ∧ p ++ [(x, a)] <+: tr := by
  induction h with
  | nil => simp at hx
  | @snoc tr t t' b hr hs ih =>
      rcases List.mem_append.mp hx with hx | hx
      · obtain ⟨p, y, hp, hy, hpre⟩ := ih hx
        exact ⟨p, y, hp, hy, hpre.trans (List.prefix_append _ _)⟩
      · simp only [List.mem_singleton, Prod.mk.injEq] at hx
        obtain ⟨rfl, rfl⟩ := hx
        exact ⟨tr, t', hr, hs, List.prefix_rfl⟩

/-- The invariant may speak of the history as well as of the state reached. -/
theorem Run.invariant (Inv : List (σ × α) → σ → Prop) (hinit : Inv [] S.init)
    (hstep : ∀ tr s a s', S.Run tr s → Inv tr s → S.step s a = some s' →
      Inv (tr ++ [(s, a)]) s')
    {tr : List (σ × α)} {s : σ} (h : S.Run tr s) : Inv tr s := by
  induction h with
  | nil => exact hinit
  | snoc hr hs ih => exact hstep _ _ _ _ hr ih hs

/-- As `Run.invariant`, for runs all of whose steps meet a condition. -/
theorem Run.invariant_where (C : σ → α → Prop) (Inv : List (σ × α) → σ → Prop)
    (hinit : Inv [] S.init)
    (hstep : ∀ tr s a s', S.Run tr s → Inv tr s → C s a → S.step s a = some s' →
      Inv (tr ++ [(s, a)]) s')
    {tr : List (σ × α)} {s : σ} (h : S.Run tr s) (hC : ∀ x ∈ tr, C x.1 x.2) : Inv tr s := by
  induction h with
  | nil => exact hinit
  | snoc hr hs ih =>
      have hlast := hC (_, _) (List.mem_append_right _ (List.mem_singleton_self _))
      exact hstep _ _ _ _ hr (ih fun x hx => hC x (List.mem_append_left _ hx)) hlast hs

/-- A view of the states under which every step of one system is a step of another, or
does nothing there, takes runs to runs. -/
theorem Run.project {τ : Type u} {β : Type v} {T : System τ β} (view : σ → τ)
    (act : σ → α → Option β) (hinit : view S.init = T.init)
    (hstep : ∀ tr s a s', S.Run tr s → S.step s a = some s' →
      match act s a with
      | some b => T.step (view s) b = some (view s')
      | none => view s' = view s)
    {tr : List (σ × α)} {s : σ} (h : S.Run tr s) :
    T.Run (tr.filterMap fun x => (act x.1 x.2).map fun b => (view x.1, b)) (view s) := by
  induction h with
  | nil =>
      rw [hinit]
      exact .nil
  | @snoc tr s s' a hr hs ih =>
      have hone := hstep tr s a s' hr hs
      rw [List.filterMap_append]
      cases hact : act s a with
      | none =>
          rw [hact] at hone
          simpa [hact, hone] using ih
      | some b =>
          rw [hact] at hone
          simpa [hact] using ih.snoc hone

theorem Always.nil {Q : List (σ × α) → σ → Prop} : S.Always Q [] ↔ Q [] S.init := by
  refine ⟨?_, ?_⟩
  · intro h
    exact h [] _ List.prefix_rfl .nil
  · intro h p x hp hx
    obtain rfl := List.prefix_nil.mp hp
    obtain rfl := hx.eq_init
    exact h

theorem Always.snoc {Q : List (σ × α) → σ → Prop} {tr : List (σ × α)} {s s' : σ} {a : α}
    (hr : S.Run tr s) (hs : S.step s a = some s') :
    S.Always Q (tr ++ [(s, a)]) ↔ S.Always Q tr ∧ Q (tr ++ [(s, a)]) s' := by
  refine ⟨?_, ?_⟩
  · intro h
    exact ⟨fun p x hp hx => h p x (hp.trans (List.prefix_append _ _)) hx,
      h _ _ List.prefix_rfl (hr.snoc hs)⟩
  · rintro ⟨h, hq⟩ p x hp hx
    rcases List.prefix_concat_iff.mp hp with rfl | hp
    · obtain rfl := hx.unique (hr.snoc hs)
      exact hq
    · exact h p x hp hx

theorem Always.last {Q : List (σ × α) → σ → Prop} {tr : List (σ × α)} {s : σ}
    (h : S.Always Q tr) (hr : S.Run tr s) : Q tr s :=
  h tr s List.prefix_rfl hr

theorem Always.congr {P Q : List (σ × α) → σ → Prop}
    (h : ∀ tr s, S.Run tr s → (P tr s ↔ Q tr s)) {tr : List (σ × α)} :
    S.Always P tr ↔ S.Always Q tr :=
  forall_congr' fun p => forall_congr' fun x => forall_congr' fun _ =>
    forall_congr' fun hx => h p x hx

/-- Every step of the trace meets a condition on the steps before it, its state and its
action. -/
def Each (C : List (σ × α) → σ → α → Prop) (tr : List (σ × α)) : Prop :=
  ∀ before x after, tr = before ++ x :: after → C before x.1 x.2

theorem Each.nil {C : List (σ × α) → σ → α → Prop} : Each C [] := by
  intro before x after h
  exact absurd h.symm (by simp)

theorem Each.snoc {C : List (σ × α) → σ → α → Prop} {tr : List (σ × α)} {s : σ} {a : α} :
    Each C (tr ++ [(s, a)]) ↔ Each C tr ∧ C tr s a := by
  refine ⟨?_, ?_⟩
  · intro h
    refine ⟨?_, h tr (s, a) [] rfl⟩
    intro before x after hsplit
    exact h before x (after ++ [(s, a)]) (by simp [hsplit])
  · rintro ⟨h, hlast⟩ before x after hsplit
    rcases List.eq_nil_or_concat after with rfl | ⟨init, last, rfl⟩
    · obtain ⟨rfl, hx⟩ := List.append_inj' hsplit rfl
      obtain rfl := List.singleton_inj.mp hx
      exact hlast
    · rw [List.concat_eq_append, ← List.cons_append, ← List.append_assoc] at hsplit
      exact h before x init (List.append_inj' hsplit rfl).1

/-- Let an invariant hold as long as every step meets a condition. If under the
invariant a step keeps the property exactly when it meets the condition, then the
property holds all along a run exactly when every step does. -/
theorem Run.always_iff_each (Q Inv : List (σ × α) → σ → Prop) (C : List (σ × α) → σ → α → Prop)
    (hinit : Q [] S.init ∧ Inv [] S.init)
    (hstep : ∀ tr s a s', S.Run tr s → Q tr s → Inv tr s → S.step s a = some s' →
      (Q (tr ++ [(s, a)]) s' ↔ C tr s a) ∧ (C tr s a → Inv (tr ++ [(s, a)]) s'))
    {tr : List (σ × α)} {s : σ} (h : S.Run tr s) :
    S.Always Q tr ↔ Each C tr := by
  suffices hboth : (S.Always Q tr ↔ Each C tr) ∧ (Each C tr → Inv tr s) from hboth.1
  induction h with
  | nil => exact ⟨iff_of_true (Always.nil.mpr hinit.1) Each.nil, fun _ => hinit.2⟩
  | @snoc tr t t' a hr hs ih =>
      obtain ⟨ih, hinv⟩ := ih
      have hlast : S.Always Q tr → (Q (tr ++ [(t, a)]) t' ↔ C tr t a) := fun hall =>
        (hstep tr t a t' hr (hall.last hr) (hinv (ih.mp hall)) hs).1
      refine ⟨?_, ?_⟩
      · rw [Always.snoc hr hs, Each.snoc, ← ih]
        exact and_congr_right hlast
      · intro hC
        obtain ⟨hC, hCa⟩ := Each.snoc.mp hC
        exact (hstep tr t a t' hr ((ih.mpr hC).last hr) (hinv hC) hs).2 hCa

theorem Each.forall {C : σ → α → Prop} {tr : List (σ × α)} :
    Each (fun _ => C) tr ↔ ∀ x ∈ tr, C x.1 x.2 := by
  refine ⟨?_, ?_⟩
  · intro h x hx
    obtain ⟨before, after, rfl⟩ := List.append_of_mem hx
    exact h before x after rfl
  · intro h before x after hsplit
    exact h x (by simp [hsplit])

/-- If, as long as the property has held so far, a step keeps it exactly when it
meets the condition, then it holds all along a run exactly when every step does. -/
theorem Run.always_iff (Q : List (σ × α) → σ → Prop) (C : σ → α → Prop)
    (hinit : Q [] S.init)
    (hstep : ∀ tr s a s', S.Run tr s → S.Always Q tr → S.step s a = some s' →
      (Q (tr ++ [(s, a)]) s' ↔ C s a))
    {tr : List (σ × α)} {s : σ} (h : S.Run tr s) :
    S.Always Q tr ↔ ∀ x ∈ tr, C x.1 x.2 := by
  rw [← Each.forall]
  refine h.always_iff_each Q (fun tr _ => S.Always Q tr) (fun _ => C)
    ⟨hinit, Always.nil.mpr hinit⟩ ?_
  intro tr s a s' hr _ hall hs
  have hlast := hstep tr s a s' hr hall hs
  exact ⟨hlast, fun hC => (Always.snoc hr hs).mpr ⟨hall, hlast.mpr hC⟩⟩

/-- For a property of single steps: if it holds of a step of the run exactly when the
step meets the condition, then it has held of the last step in every state that the
run passes exactly when every step does. -/
theorem Run.always_last_iff (R : σ → α → σ → Prop) (C : σ → α → Prop)
    {tr : List (σ × α)} {s : σ} (h : S.Run tr s)
    (hstep : ∀ p x a y, S.Run p x → S.step x a = some y → p ++ [(x, a)] <+: tr →
      (R x a y ↔ C x a)) :
    S.Always (fun p y => ∀ x a, p.getLast? = some (x, a) → R x a y) tr ↔
      ∀ x ∈ tr, C x.1 x.2 := by
  refine ⟨?_, ?_⟩
  · intro hall x hx
    obtain ⟨p, y, hp, hy, hpre⟩ := h.step_of_mem hx
    exact (hstep p x.1 x.2 y hp hy hpre).mp
      (hall _ y hpre (hp.snoc hy) x.1 x.2 List.getLast?_concat)
  · intro hC p y hpre hy x a hlast
    obtain ⟨q, rfl⟩ := List.getLast?_eq_some_iff.mp hlast
    obtain ⟨hq, hs⟩ := hy.snoc_inv
    exact (hstep q x a y hq hs hpre).mpr
      (hC (x, a) (hpre.subset (List.mem_append_right _ (List.mem_singleton_self _))))

theorem exec_cons {s t : σ} {a : α} {as : List α} {tr : List (σ × α)}
    (he : S.exec s (a :: as) = some (tr, t)) :
    ∃ s' rest, S.step s a = some s' ∧ S.exec s' as = some (rest, t) ∧ tr = (s, a) :: rest := by
  cases hs : S.step s a with
  | none => simp [System.exec, hs] at he
  | some s' =>
      simp only [System.exec, hs, Option.map_eq_some_iff, Prod.exists, Prod.mk.injEq] at he
      obtain ⟨rest, u, hrest, rfl, rfl⟩ := he
      exact ⟨s', rest, rfl, hrest, rfl⟩

/-- Executed action lists are runs. -/
theorem Run.exec {tr : List (σ × α)} {s t : σ} (h : S.Run tr s) (as : List α)
    {more : List (σ × α)} (he : S.exec s as = some (more, t)) : S.Run (tr ++ more) t := by
  induction as generalizing tr s more with
  | nil =>
      simp only [System.exec, Option.some.injEq, Prod.mk.injEq] at he
      obtain ⟨rfl, rfl⟩ := he
      simpa using h
  | cons a as ih =>
      obtain ⟨s', rest, hs, hrest, rfl⟩ := exec_cons he
      simpa using ih (h.snoc hs) hrest

theorem Run.of_exec {as : List α} {tr : List (σ × α)} {s : σ}
    (he : S.exec S.init as = some (tr, s)) : S.Run tr s := by
  simpa only [List.nil_append] using Run.nil.exec as he

theorem map_snd_of_exec {s t : σ} {as : List α} {tr : List (σ × α)}
    (he : S.exec s as = some (tr, t)) : tr.map Prod.snd = as := by
  induction as generalizing s tr with
  | nil =>
      simp only [System.exec, Option.some.injEq, Prod.mk.injEq] at he
      obtain ⟨rfl, -⟩ := he
      rfl
  | cons a as ih =>
      obtain ⟨s', rest, -, hrest, rfl⟩ := exec_cons he
      rw [List.map_cons, ih hrest]

/-- The history of an executed list holds its actions and no others. -/
theorem mem_of_exec {s t : σ} {as : List α} {tr : List (σ × α)} (he : S.exec s as = some (tr, t))
    {x : σ × α} (hx : x ∈ tr) : x.2 ∈ as := by
  induction as generalizing s tr with
  | nil =>
      simp only [System.exec, Option.some.injEq, Prod.mk.injEq] at he
      obtain ⟨rfl, -⟩ := he
      exact absurd hx List.not_mem_nil
  | cons a as ih =>
      obtain ⟨s', rest, -, hrest, rfl⟩ := exec_cons he
      rcases List.mem_cons.mp hx with rfl | hx
      · exact List.mem_cons_self
      · exact List.mem_cons_of_mem _ (ih hrest hx)

end System
end Transition
