import Mathlib.Data.List.Induction
import Mathlib.Logic.Function.Basic
import MomRpc.Lib.History

-- A deterministic machine: all nondeterminism of the modeled system sits in the choice of actions,
-- and an action which is not enabled in a state has no successor.
structure Machine (σ α : Type*) where
  init : σ
  next : σ → α → Option σ

namespace Machine

variable {σ α : Type*} {M : Machine σ α} {s s₁ s₂ s₃ : σ} {a : α} {as bs : List α}

def exec (M : Machine σ α) (s : σ) : List α → Option σ
  | []      => some s
  | a :: as => (M.next s a).bind (M.exec · as)

@[simp]
theorem exec_nil : M.exec s [] = some s :=
  rfl

@[simp]
theorem exec_cons : M.exec s (a :: as) = (M.next s a).bind (M.exec · as) :=
  rfl

theorem exec_append : M.exec s (as ++ bs) = (M.exec s as).bind (M.exec · bs) := by
  induction as generalizing s
  case nil => simp
  case cons a as hi => cases h : M.next s a <;> simp [h, hi]

theorem exec_concat : M.exec s (as ++ [a]) = (M.exec s as).bind (M.next · a) := by
  rw [exec_append]
  congr
  funext t
  simp

theorem exec_append_iff :
    M.exec s₁ (as ++ bs) = some s₃ ↔ ∃ s₂, M.exec s₁ as = some s₂ ∧ M.exec s₂ bs = some s₃ := by
  simp [exec_append, Option.bind_eq_some_iff]

theorem exec_concat_iff :
    M.exec s₁ (as ++ [a]) = some s₃ ↔ ∃ s₂, M.exec s₁ as = some s₂ ∧ M.next s₂ a = some s₃ := by
  simp [exec_concat, Option.bind_eq_some_iff]

-- A run is an execution that starts in the initial state.
def Run (M : Machine σ α) (as : List α) (s : σ) : Prop :=
  M.exec M.init as = some s

def Reachable (M : Machine σ α) (s : σ) : Prop :=
  ∃ as, M.Run as s

namespace Run

theorem nil : M.Run [] M.init :=
  rfl

theorem concat (r : M.Run as s₁) (h : M.next s₁ a = some s₂) : M.Run (as ++ [a]) s₂ :=
  exec_concat_iff.mpr ⟨s₁, r, h⟩

theorem append (r : M.Run as s₁) (h : M.exec s₁ bs = some s₂) : M.Run (as ++ bs) s₂ :=
  exec_append_iff.mpr ⟨s₁, r, h⟩

theorem reachable (r : M.Run as s) : M.Reachable s :=
  ⟨as, r⟩

theorem deterministic (r₁ : M.Run as s₁) (r₂ : M.Run as s₂) : s₁ = s₂ :=
  Option.some.inj <| r₁.symm.trans r₂

theorem split (r : M.Run (as ++ bs) s₂) : ∃ s₁, M.Run as s₁ ∧ M.exec s₁ bs = some s₂ :=
  exec_append_iff.mp r

theorem next (r : M.Run (as ++ a :: bs) s₂) (r₁ : M.Run as s₁) :
    ∃ s, M.next s₁ a = some s ∧ M.exec s bs = some s₂ := by
  have ⟨_, r', h⟩ := r.split
  cases r'.deterministic r₁
  exact Option.bind_eq_some_iff.mp h

-- Runs grow at their end: this is the induction principle behind all history invariants.
@[elab_as_elim]
theorem induction_on {P : ∀ as s, M.Run as s → Prop} (init : P [] M.init .nil)
    (step : ∀ as s a s' r h, P as s r → P (as ++ [a]) s' (.concat r h)) (as : List α) (s : σ)
    (r : M.Run as s) : P as s r := by
  induction as using List.reverseRecOn generalizing s
  case nil => cases r; exact init
  case append_singleton as a hi =>
    have ⟨t, r', h⟩ := exec_concat_iff.mp r
    exact step as t a s r' h (hi t r')

theorem of_isSome (h : (M.exec M.init as).isSome) : M.Run as ((M.exec M.init as).get h) :=
  Option.some_get h |>.symm

end Run

namespace Reachable

theorem init : M.Reachable M.init :=
  Run.nil.reachable

theorem next (r : M.Reachable s₁) (h : M.next s₁ a = some s₂) : M.Reachable s₂ :=
  let ⟨_, r⟩ := r
  r.concat h |>.reachable

theorem exec (r : M.Reachable s₁) (h : M.exec s₁ as = some s₂) : M.Reachable s₂ :=
  let ⟨_, r⟩ := r
  r.append h |>.reachable

@[elab_as_elim]
theorem induction_on {P : ∀ s, M.Reachable s → Prop} (init : P M.init .init)
    (step : ∀ s a s' r h, P s r → P s' (.next (a := a) r h)) (s : σ) (r : M.Reachable s) :
    P s r := by
  have ⟨as, r'⟩ := r
  induction as, s, r' using Run.induction_on
  case init => exact init
  case step as s a s' r' h hi => exact step s a s' r'.reachable h (hi r'.reachable)

end Reachable

-- A property that none of its actions takes away holds at the end of an execution.
theorem exec_stable {P : σ → Prop} (h : M.exec s₁ as = some s₂) (hp : P s₁)
    (step : ∀ s a s', a ∈ as → P s → M.next s a = some s' → P s') : P s₂ := by
  induction as generalizing s₁
  case nil => exact Option.some.inj h ▸ hp
  case cons a as hi =>
    have ⟨t, h₁, h₂⟩ := Option.bind_eq_some_iff.mp h
    have hp := step s₁ a t (List.mem_cons_self ..) hp h₁
    exact hi h₂ hp fun s b s' hb => step s b s' <| List.mem_cons_of_mem _ hb

-- Some execution from `s` that takes none but the actions in `A` leads to a state with `P`.
def Leads (M : Machine σ α) (A : α → Prop) (s : σ) (P : σ → Prop) : Prop :=
  ∃ as t, (∀ a ∈ as, A a) ∧ M.exec s as = some t ∧ P t

namespace Leads

variable {A : α → Prop} {P Q : σ → Prop}

theorem here (h : P s) : M.Leads A s P :=
  ⟨[], s, by simp, rfl, h⟩

theorem step (ha : A a) (hn : M.next s₁ a = some s₂) (h : M.Leads A s₂ P) : M.Leads A s₁ P :=
  let ⟨as, t, hA, he, hp⟩ := h
  ⟨a :: as, t, List.forall_mem_cons.mpr ⟨ha, hA⟩, Option.bind_eq_some_iff.mpr ⟨s₂, hn, he⟩, hp⟩

theorem single (ha : A a) (hn : M.next s₁ a = some s₂) (h : P s₂) : M.Leads A s₁ P :=
  step ha hn <| here h

theorem exec (hA : ∀ a ∈ as, A a) (he : M.exec s₁ as = some s₂) (h : M.Leads A s₂ P) :
    M.Leads A s₁ P :=
  let ⟨bs, t, hA', he', hp⟩ := h
  ⟨as ++ bs, t, List.forall_mem_append.mpr ⟨hA, hA'⟩, exec_append_iff.mpr ⟨s₂, he, he'⟩, hp⟩

theorem trans (r : M.Reachable s) (h : M.Leads A s P)
    (k : ∀ t, M.Reachable t → P t → M.Leads A t Q) : M.Leads A s Q := by
  have ⟨_, t, hA, he, hp⟩ := h
  exact exec hA he <| k t (r.exec he) hp

-- The case of a property that the actions in `A` keep.
theorem trans_of {I : σ → Prop} (keeps : ∀ s a s', A a → I s → M.next s a = some s' → I s')
    (hi : I s) (h : M.Leads A s P) (k : ∀ t, I t → P t → M.Leads A t Q) : M.Leads A s Q := by
  have ⟨_, t, hA, he, hp⟩ := h
  exact exec hA he <| k t (exec_stable he hi fun s a s' ha => keeps s a s' <| hA a ha) hp

theorem weaken {B : α → Prop} (h : M.Leads A s P) (k : ∀ a, A a → B a) : M.Leads B s P :=
  let ⟨as, t, hA, he, hp⟩ := h
  ⟨as, t, fun a ha => k a <| hA a ha, he, hp⟩

theorem mono (h : M.Leads A s P) (k : ∀ t, P t → Q t) : M.Leads A s Q :=
  let ⟨as, t, hA, he, hp⟩ := h
  ⟨as, t, hA, he, k t hp⟩

end Leads

-- `P` holds in every state the run passes through, its last one included.
def Always (M : Machine σ α) (as : List α) (P : σ → Prop) : Prop :=
  ∀ xs ys s, as = xs ++ ys → M.Run xs s → P s

-- `C` holds of every step the run takes: of the state before the step and the action taken there.
def Throughout (M : Machine σ α) (as : List α) (C : σ → α → Prop) : Prop :=
  ∀ xs a ys s, as = xs ++ a :: ys → M.Run xs s → C s a

namespace Throughout

variable {C : σ → α → Prop}

theorem left (t : M.Throughout (as ++ bs) C) : M.Throughout as C :=
  fun xs a ys s h => t xs a (ys ++ bs) s (by simp [h])

theorem last (t : M.Throughout (as ++ [a]) C) (r : M.Run as s) : C s a :=
  t as a [] s rfl r

-- Conditions need to agree only on the steps that can be taken.
theorem congr {D : σ → α → Prop} (r : M.Run as s)
    (h : ∀ s a s', M.Reachable s → M.next s a = some s' → (C s a ↔ D s a)) :
    M.Throughout as C ↔ M.Throughout as D := by
  have eq {xs a ys t} (he : as = xs ++ a :: ys) (rt : M.Run xs t) : C t a ↔ D t a := by
    subst he
    have ⟨_, hn, _⟩ := r.next rt
    exact h t a _ rt.reachable hn
  constructor
  case mp  => exact fun hc xs a ys t he rt => (eq he rt).mp <| hc xs a ys t he rt
  case mpr => exact fun hd xs a ys t he rt => (eq he rt).mpr <| hd xs a ys t he rt

end Throughout

-- Some step that the run takes meets `C`.
def Occurs (M : Machine σ α) (as : List α) (C : σ → α → Prop) : Prop :=
  ∃ xs a ys s, as = xs ++ a :: ys ∧ M.Run xs s ∧ C s a

namespace Occurs

variable {C D : σ → α → Prop}

theorem last (r : M.Run as s) (h : C s a) : M.Occurs (as ++ [a]) C :=
  ⟨as, a, [], s, rfl, r, h⟩

theorem concat (h : M.Occurs as C) : M.Occurs (as ++ [a]) C :=
  let ⟨xs, b, ys, t, he, rt, hc⟩ := h
  ⟨xs, b, ys ++ [a], t, by simp [he], rt, hc⟩

theorem nil : ¬M.Occurs [] C := by
  rintro ⟨xs, a, ys, _, he, _⟩
  simp at he

theorem cases (r : M.Run as s) (h : M.Occurs (as ++ [a]) C) : M.Occurs as C ∨ C s a := by
  obtain ⟨xs, b, ys, t, he, rt, hc⟩ := h
  rcases List.concat_eq_append_cons_iff.mp he with ⟨zs, _, he⟩ | ⟨_, rfl, rfl⟩
  · exact .inl ⟨xs, b, zs, t, he, rt, hc⟩
  · exact .inr <| r.deterministic rt ▸ hc

theorem mono (h : M.Occurs as C) (k : ∀ s a, C s a → D s a) : M.Occurs as D :=
  let ⟨xs, a, ys, t, he, rt, hc⟩ := h
  ⟨xs, a, ys, t, he, rt, k t a hc⟩

end Occurs

-- The last step of the run that meets `C` meets `D` as well.
def Last (M : Machine σ α) (as : List α) (C D : σ → α → Prop) : Prop :=
  ∃ xs a ys s, as = xs ++ a :: ys ∧ M.Run xs s ∧ C s a ∧ D s a ∧
    ∀ zs b ys' t, ys = zs ++ b :: ys' → M.Run (xs ++ a :: zs) t → ¬C t b

theorem Last.occurs {C D : σ → α → Prop} (h : M.Last as C D) :
    M.Occurs as fun s a => C s a ∧ D s a :=
  let ⟨xs, a, ys, s, he, rs, hc, hd, _⟩ := h
  ⟨xs, a, ys, s, he, rs, hc, hd⟩

theorem last_concat_iff {C D : σ → α → Prop} (r : M.Run as s) :
    M.Last (as ++ [a]) C D ↔ (C s a ∧ D s a) ∨ (M.Last as C D ∧ ¬C s a) := by
  constructor
  case mp =>
    rintro ⟨xs, b, ys, t, he, rt, hc, hd, last⟩
    rcases List.concat_eq_append_cons_iff.mp he with ⟨zs, rfl, hs⟩ | ⟨rfl, rfl, rfl⟩
    case inl =>
      refine .inr ⟨⟨xs, b, zs, t, hs, rt, hc, hd, fun zs' c ys' u hz ru => ?_⟩, ?_⟩
      · exact last zs' c (ys' ++ [a]) u (by simp [hz]) ru
      · exact last zs a [] s rfl <| hs ▸ r
    case inr => exact .inl <| r.deterministic rt ▸ ⟨hc, hd⟩
  case mpr =>
    rintro (⟨hc, hd⟩ | ⟨⟨xs, b, ys, t, hs, rt, hc, hd, last⟩, none⟩)
    case inl => exact ⟨as, a, [], s, rfl, r, hc, hd, by simp⟩
    case inr =>
      refine ⟨xs, b, ys ++ [a], t, by simp [hs], rt, hc, hd, fun zs c ys' u hz ru => ?_⟩
      rcases List.concat_eq_append_cons_iff.mp hz with ⟨zs', _, hz⟩ | ⟨_, rfl, rfl⟩
      · exact last zs c zs' u hz ru
      · exact r.deterministic (hs ▸ ru) ▸ none

-- The steps of an execution from `s` meet `C`.
def Meets (M : Machine σ α) (C : σ → α → Prop) (s : σ) : List α → Prop
  | []      => True
  | a :: as => C s a ∧ ∀ t, M.next s a = some t → M.Meets C t as

theorem Meets.cons {C : σ → α → Prop} (hc : C s₁ a) (hn : M.next s₁ a = some s₂)
    (h : M.Meets C s₂ as) : M.Meets C s₁ (a :: as) :=
  ⟨hc, fun _ hn' => Option.some.inj (hn.symm.trans hn') ▸ h⟩

instance decidableMeets {C : σ → α → Prop} [∀ s a, Decidable (C s a)] :
    ∀ s as, Decidable (M.Meets C s as)
  | _, []      => .isTrue trivial
  | s, a :: as =>
    match h : M.next s a with
    | none   => decidable_of_iff (C s a) <| by simp [Meets, h]
    | some t =>
      letI : Decidable (M.Meets C t as) := decidableMeets t as
      decidable_of_iff (C s a ∧ M.Meets C t as) <| by simp [Meets, h]

theorem Meets.last {C : σ → α → Prop} (h : M.Meets C s₁ (as ++ a :: bs))
    (he : M.exec s₁ as = some s₂) : C s₂ a := by
  induction as generalizing s₁
  case nil => cases he; exact h.left
  case cons b as ih =>
    have ⟨t, hn, he⟩ := Option.bind_eq_some_iff.mp he
    exact ih (h.right t hn) he

theorem throughout_of_meets {C : σ → α → Prop} (h : M.Meets C M.init as) : M.Throughout as C :=
  fun _ _ _ _ he r => Meets.last (he ▸ h) r

section Count

variable {C : σ → α → Prop} [∀ s a, Decidable (C s a)]

-- How many steps of an execution from `s` meet `C`.
def count (M : Machine σ α) (C : σ → α → Prop) [∀ s a, Decidable (C s a)] : σ → List α → ℕ
  | _, []      => 0
  | s, a :: as => (if C s a then 1 else 0) + (M.next s a).elim 0 (M.count C · as)

-- The steps that use up some of a measure, while no other step adds to it, are no more than there
-- is of it.
theorem count_add_le_of {I : σ → Prop} {m : σ → ℕ} (hi : I s₁) (h : M.exec s₁ as = some s₂)
    (step : ∀ s a s', I s → M.next s a = some s' →
      I s' ∧ (if C s a then 1 else 0) + m s' ≤ m s) : M.count C s₁ as + m s₂ ≤ m s₁ := by
  induction as generalizing s₁
  case nil => cases h; simp [count]
  case cons a as ih =>
    have ⟨t, hn, he⟩ := Option.bind_eq_some_iff.mp h
    have ⟨ht, first⟩ := step s₁ a t hi hn
    have rest := ih ht he
    simp only [count, hn, Option.elim_some]
    omega

theorem count_add_le {m : σ → ℕ} (r : M.Reachable s₁) (h : M.exec s₁ as = some s₂)
    (step : ∀ s a s', M.Reachable s → M.next s a = some s' →
      (if C s a then 1 else 0) + m s' ≤ m s) : M.count C s₁ as + m s₂ ≤ m s₁ :=
  count_add_le_of r h fun s a s' r hn => ⟨r.next hn, step s a s' r hn⟩

-- The steps that meet `C` come to an end whatever else happens: there are no more than so many of
-- them in any execution from `s`, and as long as `P` holds one of them can be taken.
structure Finishes (M : Machine σ α) (C : σ → α → Prop) [∀ s a, Decidable (C s a)]
    (P : σ → Prop) (s : σ) : Prop where
  bounded : ∃ n, ∀ as t, M.exec s as = some t → M.count C s as ≤ n
  goes    : ∀ as t, M.exec s as = some t → P t → ∃ a t', C t a ∧ M.next t a = some t'

theorem finishes_of_measure {I P : σ → Prop} (m : σ → ℕ) (hi : I s)
    (step : ∀ s a s', I s → M.next s a = some s' → I s' ∧ (if C s a then 1 else 0) + m s' ≤ m s)
    (goes : ∀ s, I s → P s → ∃ a s', C s a ∧ M.next s a = some s') : M.Finishes C P s where
  bounded := ⟨m s, fun _ _ he => Nat.le_trans (Nat.le_add_right ..) <| count_add_le_of hi he step⟩
  goes _ t he :=
    goes t <| exec_stable he hi fun s a s' _ hi hn => (step s a s' hi hn).left

end Count

section Outputs

variable {β : Type*}

-- What the steps of an execution from `s` put out, in this order.
def outputs (M : Machine σ α) (out : σ → α → Option β) : σ → List α → List β
  | _, []      => []
  | s, a :: as => (out s a).toList ++ (M.next s a).elim [] (M.outputs out · as)

-- An invariant that takes the outputs so far into account.
theorem outputs_invariant (out : σ → α → Option β) (I : σ → List β → Prop) {xs : List β}
    (r : M.Reachable s₁) (h : M.exec s₁ as = some s₂) (init : I s₁ xs)
    (step : ∀ s a s' ys, M.Reachable s → M.next s a = some s' → I s ys →
      I s' (ys ++ (out s a).toList)) : I s₂ (xs ++ M.outputs out s₁ as) := by
  induction as generalizing s₁ xs
  case nil =>
    cases h
    simpa [outputs] using init
  case cons a as ih =>
    obtain ⟨t, hn, he⟩ := Option.bind_eq_some_iff.mp h
    have rest := ih (r.next hn) he <| step s₁ a t xs r hn init
    simpa only [outputs, hn, Option.elim_some, List.append_assoc] using rest

end Outputs

-- `P` holds of every run that this one begins with, and of the state which that run leads to.
def Along (M : Machine σ α) (as : List α) (P : List α → σ → Prop) : Prop :=
  ∀ xs ys s, as = xs ++ ys → M.Run xs s → P xs s

-- If the first run that violates `P` ends with exactly the steps that violate `C`, then a run keeps
-- `P` all along if and only if all of its steps meet `C`.
theorem along_iff_throughout {P : List α → σ → Prop} {C : σ → α → Prop} (r : M.Run as s)
    (init : P [] M.init)
    (step : ∀ as s a s', M.Run as s → P as s → M.next s a = some s' → (P (as ++ [a]) s' ↔ C s a)) :
    M.Along as P ↔ M.Throughout as C := by
  constructor
  case mp =>
    intro h xs a ys t he rt
    subst he
    have ⟨u, hu, _⟩ := r.next rt
    apply step xs t a u rt (h xs (a :: ys) t rfl rt) hu |>.mp
    exact h (xs ++ [a]) ys u (by simp) (rt.concat hu)
  case mpr =>
    intro h xs ys t he rt
    replace h : M.Throughout xs C := Throughout.left (he ▸ h)
    clear he
    induction xs, t, rt using Run.induction_on
    case init => exact init
    case step xs t a u rt hu hi => exact step xs t a u rt (hi h.left) hu |>.mpr (h.last rt)

-- The case of a property of states alone.
theorem always_iff_throughout {P : σ → Prop} {C : σ → α → Prop} (r : M.Run as s) (init : P M.init)
    (step : ∀ s a s', M.Reachable s → P s → M.next s a = some s' → (P s' ↔ C s a)) :
    M.Always as P ↔ M.Throughout as C :=
  along_iff_throughout (P := fun _ => P) r init fun _ s a s' r => step s a s' r.reachable

-- The direction of `always_iff_throughout` that needs the steps' condition only to be sufficient.
theorem always_of_throughout {P : σ → Prop} {C : σ → α → Prop} (h : M.Throughout as C)
    (init : P M.init) (step : ∀ s a s', M.Reachable s → P s → C s a → M.next s a = some s' → P s') :
    M.Always as P := by
  intro xs ys t he rt
  replace h : M.Throughout xs C := Throughout.left (he ▸ h)
  clear he
  induction xs, t, rt using Run.induction_on
  case init => exact init
  case step xs t a u rt hu hi => exact step t a u rt.reachable (hi h.left) (h.last rt) hu

-- The step of a component which need not take part in a step of the whole.
def next? (M : Machine σ α) (s : σ) : Option α → Option σ
  | none   => some s
  | some a => M.next s a

theorem next?_cases {o : Option α} (h : M.next? s₁ o = some s₂) :
    (o = none ∧ s₂ = s₁) ∨ ∃ a, o = some a ∧ M.next s₁ a = some s₂ := by
  cases o
  case none   => exact .inl ⟨rfl, (Option.some.inj h).symm⟩
  case some a => exact .inr ⟨a, rfl, h⟩

section Projection

variable {τ β : Type*} {N : Machine τ β} {g : τ → σ} {f : β → Option α} {t : τ} {bs : List β}

-- A component of a larger machine takes part in some of its steps.
structure Component (N : Machine τ β) (M : Machine σ α) (g : τ → σ) (f : β → Option α) : Prop where
  init : g N.init = M.init
  next : ∀ t b t', N.next t b = some t' → M.next? (g t) (f b) = some (g t')

theorem Component.run (c : Component N M g f) (r : N.Run bs t) : M.Run (bs.filterMap f) (g t) := by
  induction bs, t, r using Run.induction_on
  case init => exact c.init ▸ Run.nil
  case step bs t b t' _ h hi =>
    rw [List.filterMap_append]
    rcases next?_cases <| c.next t b t' h with ⟨hf, hg⟩ | ⟨a, hf, hn⟩
    · simpa [hf, hg] using hi
    · simpa [hf] using hi.concat hn

-- The part that the component has in a step may depend on the state.
theorem exec_outputs {out : τ → β → Option α} {t' : τ}
    (step : ∀ t b t', N.next t b = some t' → M.next? (g t) (out t b) = some (g t'))
    (h : N.exec t bs = some t') : M.exec (g t) (N.outputs out t bs) = some (g t') := by
  induction bs generalizing t
  case nil => cases h; rfl
  case cons b bs ih =>
    obtain ⟨u, hn, he⟩ := Option.bind_eq_some_iff.mp h
    rw [outputs, hn, Option.elim_some]
    rcases next?_cases <| step t b u hn with ⟨hf, hg⟩ | ⟨a, hf, ha⟩
    · simpa [hf, hg] using ih he
    · simpa [hf, ha] using ih he

end Projection

section Simulation

variable {τ β : Type*} {N : Machine τ β} {R : List β → τ → σ → Prop} {f : β → Option α} {t : τ}
  {bs : List β}

-- A machine does what another one allows if each of its steps, in any run, is one that a related
-- state of the other machine has as well, or is none there.
theorem Run.simulate (init : R [] N.init M.init)
    (step : ∀ bs t b t' s, N.Run bs t → N.next t b = some t' → M.Reachable s → R bs t s →
      ∃ s', M.next? s (f b) = some s' ∧ R (bs ++ [b]) t' s') (r : N.Run bs t) :
    ∃ s, M.Run (bs.filterMap f) s ∧ R bs t s := by
  induction bs, t, r using Run.induction_on
  case init => exact ⟨_, .nil, init⟩
  case step bs t b t' r hn ih =>
    have ⟨s, rs, related⟩ := ih
    have ⟨s', hs, related'⟩ := step bs t b t' s r hn rs.reachable related
    refine ⟨s', ?_, related'⟩
    rw [List.filterMap_append]
    rcases next?_cases hs with ⟨hf, rfl⟩ | ⟨a, hf, hn⟩
    · simpa [hf] using rs
    · simpa [hf] using rs.concat hn

end Simulation

section Implementation

variable {τ : Type*} {A : Machine τ α} {g : σ → τ} {I : σ → Prop} {R : τ → Prop} {t : τ}

-- Whatever the abstract machine does, the other one does so too, and nothing else, as long as the
-- abstract states it takes its steps in meet `R`. `I` is an invariant of the implementation.
structure Implements (M : Machine σ α) (A : Machine τ α) (g : σ → τ) (I : σ → Prop)
    (R : τ → Prop) : Prop where
  init      : g M.init = A.init
  invariant : I M.init
  next      : ∀ s a, I s → R (g s) → (M.next s a).map g = A.next (g s) a
  preserves : ∀ s a s', I s → R (g s) → M.next s a = some s' → I s'

theorem Implements.concrete (imp : Implements M A g I R) (r : M.Run as s)
    (hr : M.Throughout as fun s _ => R (g s)) : I s ∧ A.Run as (g s) := by
  induction as, s, r using Run.induction_on
  case init => exact ⟨imp.invariant, imp.init ▸ .nil⟩
  case step as s a s' r hn ih =>
    have ⟨inv, ra⟩ := ih hr.left
    have hr := hr.last r
    refine ⟨imp.preserves s a s' inv hr hn, ra.concat ?_⟩
    rw [← imp.next s a inv hr, hn]
    rfl

theorem Implements.abstract (imp : Implements M A g I R) (r : A.Run as t)
    (hr : A.Throughout as fun t _ => R t) : ∃ s, M.Run as s ∧ I s ∧ g s = t := by
  induction as, t, r using Run.induction_on
  case init => exact ⟨_, .nil, imp.invariant, imp.init⟩
  case step as t a t' r hn ih =>
    obtain ⟨s, rs, inv, rfl⟩ := ih hr.left
    have hr := hr.last r
    rw [← imp.next s a inv hr] at hn
    obtain ⟨s', hs, rfl⟩ := Option.map_eq_some_iff.mp hn
    exact ⟨s', rs.concat hs, imp.preserves s a s' inv hr hs, rfl⟩

theorem Implements.throughout (imp : Implements M A g I R) (r : M.Run as s)
    (hr : M.Throughout as fun s _ => R (g s)) : A.Throughout as fun t _ => R t := by
  intro xs a ys t he rt
  subst he
  have ⟨u, ru, _⟩ := r.split
  have ⟨_, ra⟩ := imp.concrete ru hr.left
  exact rt.deterministic ra ▸ hr xs a ys u rfl ru

end Implementation

section Family

variable {ι : Type*} [DecidableEq ι] {F : ι → Machine σ α} {f g : ι → σ} {o : Option (ι × α)}

-- One machine for each index, of which one at a time takes a step.
def family (F : ι → Machine σ α) : Machine (ι → σ) (ι × α) where
  init i   := (F i).init
  next f a := ((F a.1).next (f a.1) a.2).map (Function.update f a.1)

def member (i : ι) (a : ι × α) : Option α :=
  if a.1 = i then some a.2 else none

theorem member_bind {γ : Type*} {i j : ι} {a : α} {k : α → Option γ} :
    (member i (j, a)).bind k = if j = i then k a else none := by
  unfold member
  split <;> rfl

theorem bind_member_eq_some {i : ι} {a : α} : o.bind (member i) = some a ↔ o = some (i, a) := by
  cases o
  case none => simp
  case some b =>
    obtain ⟨j, b⟩ := b
    simp [member]

theorem family_next?_of {i : ι} {a : α} {s : σ} (h : (F i).next (f i) a = some s) :
    (family F).next? f (some (i, a)) = some (Function.update f i s) := by
  simp [next?, family, h]

theorem family_next?_update {i : ι} {s s' : σ} {o : Option α} (h : (F i).next? s o = some s') :
    (family F).next? (Function.update f i s) (o.map (i, ·)) = some (Function.update f i s') := by
  cases o
  case none => cases h; rfl
  case some a =>
    have stepped : (F i).next (Function.update f i s i) a = some s' := by simpa [next?] using h
    simpa using family_next?_of stepped

theorem family_next? (h : (family F).next? f o = some g) (i : ι) :
    (F i).next? (f i) (o.bind (member i)) = some (g i) := by
  cases o
  case none => cases h; rfl
  case some a =>
    obtain ⟨s, hs, rfl⟩ := Option.map_eq_some_iff.mp h
    by_cases hi : a.1 = i
    case pos =>
      subst hi
      simpa [member, next?] using hs
    case neg => simp [member, next?, hi, Ne.symm hi]

end Family

section Product

variable {ι : Type*} [DecidableEq ι] {S A : ι → Type*} {F : ∀ i, Machine (S i) (A i)}
  {f g : ∀ i, S i} {o : Option (Σ i, A i)}

-- The same for machines of which each has states and actions of its own.
def product (F : ∀ i, Machine (S i) (A i)) : Machine (∀ i, S i) (Σ i, A i) where
  init i   := (F i).init
  next f a := ((F a.1).next (f a.1) a.2).map (Function.update f a.1)

def part (i : ι) (a : Σ i, A i) : Option (A i) :=
  if h : a.1 = i then some (h ▸ a.2) else none

@[simp]
theorem part_self {i : ι} {a : A i} : part i ⟨i, a⟩ = some a := by
  simp [part]

theorem part_of_ne {i j : ι} {a : A j} (h : j ≠ i) : part i ⟨j, a⟩ = none := by
  simp [part, h]

theorem part_eq_some {i : ι} {a : Σ i, A i} {b : A i} : part i a = some b ↔ a = ⟨i, b⟩ := by
  obtain ⟨j, a⟩ := a
  by_cases h : j = i
  case neg => simp [part_of_ne h, h]
  case pos =>
    subst h
    simp

theorem product_next? (h : (product F).next? f o = some g) (i : ι) :
    (F i).next? (f i) (o.bind (part i)) = some (g i) := by
  cases o
  case none => cases h; rfl
  case some a =>
    obtain ⟨j, a⟩ := a
    obtain ⟨s, hs, rfl⟩ := Option.map_eq_some_iff.mp h
    by_cases hi : j = i
    case pos =>
      subst hi
      simpa [next?] using hs
    case neg => simp [part_of_ne hi, next?, Ne.symm hi]

end Product

end Machine
