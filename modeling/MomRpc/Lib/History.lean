import Mathlib.Algebra.BigOperators.Group.List.Basic
import Mathlib.Data.List.Induction
import Mathlib.Data.List.Perm.Basic

namespace List

variable {α : Type*} {xs ys as : List α} {a b : α}

-- Histories are lists that grow at their end: an entry of a history with one more entry is
-- either an entry of what was there before or the newest one.
theorem concat_eq_append_cons_iff :
    as ++ [a] = xs ++ b :: ys ↔
      (∃ zs, ys = zs ++ [a] ∧ as = xs ++ b :: zs) ∨ (ys = [] ∧ as = xs ∧ a = b) := by
  induction ys using List.reverseRecOn
  case nil => simp
  case append_singleton ys c _ =>
    rw [show xs ++ b :: (ys ++ [c]) = (xs ++ b :: ys) ++ [c] by simp, List.append_singleton_inj]
    constructor
    case mp  => exact fun ⟨h, hc⟩ => .inl ⟨ys, by simp [hc], h⟩
    case mpr =>
      rintro (⟨zs, hz, h⟩ | ⟨h, _⟩)
      · have ⟨hy, hc⟩ := List.append_singleton_inj.mp hz
        exact ⟨hy ▸ h, hc.symm⟩
      · simp at h

-- Of two entries of a history that are equal, either is the other or one comes first.
theorem append_cons_cases {xs' ys' : List α} (h : xs ++ a :: ys = xs' ++ a :: ys') :
    xs = xs' ∨ xs ++ [a] <+: xs' ∨ xs' ++ [a] <+: xs := by
  rcases List.append_eq_append_iff.mp h with ⟨zs, rfl, hz⟩ | ⟨zs, rfl, hz⟩
  all_goals
    cases zs
    case nil => exact .inl (by simp)
    case cons b zs => obtain ⟨rfl, _⟩ := List.cons.inj hz; simp

theorem filterMap_concat {β : Type*} {f : α → Option β} :
    (as ++ [a]).filterMap f = as.filterMap f ++ (f a).toList := by
  cases h : f a <;> simp [List.filterMap_append, h]

theorem eq_take_cons_drop {n : ℕ} (h : as[n]? = some a) :
    as = as.take n ++ a :: as.drop (n + 1) := by
  have ⟨hl, hn⟩ := List.getElem?_eq_some_iff.mp h
  simp [← hn]

-- An entry of a list of which one has been replaced.
theorem getElem?_concat_cases {n : ℕ} (h : (as ++ [a])[n]? = some b) :
    as[n]? = some b ∨ (n = as.length ∧ a = b) := by
  by_cases hl : n < as.length
  case pos => exact .inl <| (getElem?_append_left hl).symm.trans h
  case neg =>
    rw [getElem?_append_right (Nat.le_of_not_lt hl), getElem?_singleton] at h
    obtain ⟨hn, rfl⟩ := by simpa using h
    exact .inr ⟨by omega, rfl⟩

theorem getElem?_set_cases {c : α} {m n : ℕ} (h : (as.set n b)[m]? = some c) :
    (m = n ∧ c = b) ∨ (m ≠ n ∧ as[m]? = some c) := by
  by_cases hm : m = n
  case pos =>
    subst hm
    have ⟨hl, he⟩ := List.getElem?_eq_some_iff.mp h
    exact .inl ⟨rfl, by simpa using he.symm⟩
  case neg => exact .inr ⟨hm, by rwa [List.getElem?_set_ne (Ne.symm hm)] at h⟩

-- What becomes of an entry when one of them is replaced.
theorem getElem?_set_related {R : α → α → Prop} {c : α} {m n : ℕ} (hn : as[n]? = some a)
    (hm : as[m]? = some c) (eq : n = m → R a b) (ne : n ≠ m → R c c) :
    ∃ c', (as.set n b)[m]? = some c' ∧ R c c' := by
  by_cases h : n = m
  case pos =>
    subst h
    cases hn.symm.trans hm
    have ⟨hl, _⟩ := List.getElem?_eq_some_iff.mp hn
    exact ⟨b, List.getElem?_set_self hl, eq rfl⟩
  case neg => exact ⟨c, (List.getElem?_set_ne h).trans hm, ne h⟩

theorem exists_getElem?_set {P : α → Prop} {m n : ℕ} (hn : as[n]? = some a)
    (hm : ∃ c, as[m]? = some c ∧ P c) (eq : n = m → P a → P b) :
    ∃ c, (as.set n b)[m]? = some c ∧ P c := by
  have ⟨c, hm, hp⟩ := hm
  have ⟨c', hm', keeps⟩ := getElem?_set_related (R := (P · → P ·)) hn hm eq fun _ => id
  exact ⟨c', hm', keeps hp⟩

theorem map_getElem?_set {β : Type*} {f : α → β} {n : ℕ} (h : as[n]? = some a) (hf : f b = f a)
    (m : ℕ) : (as.set n b)[m]?.map f = as[m]?.map f := by
  by_cases hm : m = n
  case pos =>
    subst hm
    have ⟨hl, _⟩ := List.getElem?_eq_some_iff.mp h
    simp [List.getElem?_set_self hl, h, hf]
  case neg => rw [List.getElem?_set_ne (Ne.symm hm)]

theorem countP_set_eq {p : α → Bool} {n : ℕ} (h : as[n]? = some a) (hp : p b = p a) :
    (as.set n b).countP p = as.countP p := by
  have ⟨hl, _⟩ := List.getElem?_eq_some_iff.mp h
  rw [List.set_eq_take_cons_drop b hl]
  conv_rhs => rw [eq_take_cons_drop h]
  simp [List.countP_cons, hp]

theorem sum_map_set {β : Type*} [AddCommMonoid β] {f : α → β} {n : ℕ} (h : as[n]? = some a) :
    ((as.set n b).map f).sum + f a = (as.map f).sum + f b := by
  have ⟨hl, _⟩ := List.getElem?_eq_some_iff.mp h
  rw [List.set_eq_take_cons_drop b hl]
  conv_rhs => rw [eq_take_cons_drop h]
  simp only [List.map_append, List.map_cons, List.sum_append, List.sum_cons]
  ac_rfl

theorem modify_eq_set_of_getElem? {f : α → α} {n : ℕ} (h : as[n]? = some a) :
    as.modify n f = as.set n (f a) := by
  obtain ⟨hl, rfl⟩ := List.getElem?_eq_some_iff.mp h
  exact List.modify_eq_set_get f hl

theorem set_eq_self_of_getElem? {n : ℕ} (h : as[n]? = some a) : as.set n a = as := by
  obtain ⟨hl, rfl⟩ := List.getElem?_eq_some_iff.mp h
  exact List.set_getElem_self hl

theorem countP_modify_eq {p : α → Bool} {f : α → α} {n : ℕ}
    (h : ∀ a, as[n]? = some a → p (f a) = p a) : (as.modify n f).countP p = as.countP p := by
  cases ha : as[n]?
  case none   => rw [List.modify_eq_self <| List.getElem?_eq_none_iff.mp ha]
  case some a => rw [modify_eq_set_of_getElem? ha, countP_set_eq ha (h a ha)]

theorem countP_modify_succ {p : α → Bool} {f : α → α} {n : ℕ} (h : as[n]? = some a)
    (ha : p a = false) (hf : p (f a)) : (as.modify n f).countP p = as.countP p + 1 := by
  have ⟨hl, _⟩ := List.getElem?_eq_some_iff.mp h
  rw [modify_eq_set_of_getElem? h, List.set_eq_take_cons_drop _ hl]
  conv_rhs => rw [eq_take_cons_drop h]
  simp [ha, hf]
  omega

theorem filterMap_set_eq {β : Type*} {f : α → Option β} {n : ℕ} (h : as[n]? = some a)
    (hf : f b = f a) : (as.set n b).filterMap f = as.filterMap f := by
  have ⟨hl, _⟩ := List.getElem?_eq_some_iff.mp h
  rw [List.set_eq_take_cons_drop b hl]
  conv_rhs => rw [eq_take_cons_drop h]
  simp [List.filterMap_cons, hf]

theorem filterMap_modify_eq {β : Type*} {f : α → Option β} {g : α → α} {n : ℕ}
    (h : ∀ a, as[n]? = some a → f (g a) = f a) : (as.modify n g).filterMap f = as.filterMap f := by
  cases ha : as[n]?
  case none   => rw [List.modify_eq_self <| List.getElem?_eq_none_iff.mp ha]
  case some a => rw [modify_eq_set_of_getElem? ha, filterMap_set_eq ha (h a ha)]

-- The last entry that can count comes to count when it is replaced.
theorem filterMap_set_last {β : Type*} {f : α → Option β} {n : ℕ} (h : as[n]? = some a)
    (ha : f a = none) (last : ∀ m c, n < m → as[m]? = some c → f c = none) :
    (as.set n b).filterMap f = as.filterMap f ++ (f b).toList := by
  have ⟨hl, _⟩ := List.getElem?_eq_some_iff.mp h
  have rest : (as.drop (n + 1)).filterMap f = [] := by
    refine List.filterMap_eq_nil_iff.mpr fun c hc => ?_
    have ⟨m, hm⟩ := List.getElem?_of_mem hc
    rw [List.getElem?_drop] at hm
    exact last (n + 1 + m) c (by omega) hm
  rw [List.set_eq_take_cons_drop b hl]
  conv_rhs => rw [eq_take_cons_drop h]
  cases hb : f b <;> simp [ha, hb, rest]

-- An entry that did not count before it was replaced adds what counts of its replacement.
theorem filterMap_set_perm {β : Type*} {f : α → Option β} {n : ℕ} (h : as[n]? = some a)
    (ha : f a = none) : ((as.set n b).filterMap f).Perm (as.filterMap f ++ (f b).toList) := by
  have ⟨hl, _⟩ := List.getElem?_eq_some_iff.mp h
  rw [List.set_eq_take_cons_drop b hl]
  conv_rhs => rw [eq_take_cons_drop h]
  cases hb : f b <;> simp [ha, hb]
  rw [← List.append_assoc]
  exact List.perm_middle.trans (List.perm_append_singleton ..).symm

-- Replacing the entries at several places, one after the other.
theorem foldl_modify_getElem? {f : α → α} {is : List ℕ} (nodup : is.Nodup) (as : List α) (n : ℕ) :
    (is.foldl (fun as i => as.modify i f) as)[n]? = as[n]?.map (if n ∈ is then f else id) := by
  induction is generalizing as
  case nil => simp
  case cons i is hi =>
    have ⟨fresh, nodup⟩ := List.nodup_cons.mp nodup
    rw [List.foldl_cons, hi nodup, List.getElem?_modify]
    by_cases hn : i = n
    case pos =>
      subst hn
      simp [fresh]
    case neg => simp [hn, Ne.symm hn]

-- The function begins with the entries of the list.
def Begins (as : List α) (f : ℕ → α) : Prop :=
  ∀ n a, as[n]? = some a → f n = a

theorem exists_begins [Inhabited α] (as : List α) : ∃ f, as.Begins f :=
  ⟨fun n => as[n]?.getD default, fun n a h => by simp [h]⟩

theorem begins_concat_iff {f : ℕ → α} : (as ++ [a]).Begins f ↔ as.Begins f ∧ f as.length = a := by
  constructor
  case mp =>
    intro h
    refine ⟨fun n b hb => h n b ?_, h _ a List.getElem?_concat_length⟩
    have ⟨hl, _⟩ := List.getElem?_eq_some_iff.mp hb
    rwa [List.getElem?_append_left hl]
  case mpr =>
    intro ⟨h, ha⟩ n b hb
    rcases Nat.lt_trichotomy n as.length with hl | rfl | hl
    · exact h n b <| by rwa [List.getElem?_append_left hl] at hb
    · rw [List.getElem?_concat_length] at hb
      exact ha.trans <| Option.some.inj hb
    · rw [List.getElem?_eq_none (by simp; omega)] at hb
      cases hb

end List
