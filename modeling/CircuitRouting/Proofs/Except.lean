import Mathlib.Data.List.Basic
import Mathlib.Data.List.Forall2

/-!
# Computations that may fail

What a computation that succeeded has gone through, step by step.
-/

namespace CircuitRouting

variable {ε ε' α β γ : Type} {x : Except ε α} {a : α} {b : β} {as : List α} {bs : List β}

theorem bind_eq_ok_iff {f : α → Except ε β} :
    x >>= f = .ok b ↔ ∃ a, x = .ok a ∧ f a = .ok b := by
  cases x <;> simp [bind, Except.bind]

theorem bind_eq_error_iff {f : α → Except ε β} {e : ε} :
    x >>= f = .error e ↔ x = .error e ∨ ∃ a, x = .ok a ∧ f a = .error e := by
  cases x <;> simp [bind, Except.bind]

theorem map_eq_ok_iff {f : α → β} : x.map f = .ok b ↔ ∃ a, x = .ok a ∧ f a = b := by
  cases x <;> simp [Except.map]

theorem mapError_eq_ok_iff {f : ε → ε'} : x.mapError f = .ok a ↔ x = .ok a := by
  cases x <;> simp [Except.mapError]

theorem map_eq_error_iff {f : α → β} {e : ε} : x.map f = .error e ↔ x = .error e := by
  cases x <;> simp [Except.map]

theorem mapError_eq_error_iff {f : ε → ε'} {e : ε'} :
    x.mapError f = .error e ↔ ∃ e', x = .error e' ∧ f e' = e := by
  cases x <;> simp [Except.mapError]

theorem toOption_eq_some_iff : x.toOption = some a ↔ x = .ok a := by
  cases x <;> simp [Except.toOption]

-- What is refused under a condition goes on only without it.
theorem refuse_eq_ok_iff {c : Prop} [Decidable c] {e : ε} {k : Unit → Except ε β} :
    (if c then throw e >>= k else k ()) = .ok b ↔ ¬c ∧ k () = .ok b := by
  by_cases refused : c
  case pos => simp [refused, throw, throwThe, MonadExceptOf.throw, bind, Except.bind]
  case neg => simp [refused]

theorem mapM_eq_ok_iff {f : α → Except ε β} :
    as.mapM f = .ok bs ↔ List.Forall₂ (fun a b => f a = .ok b) as bs := by
  induction as generalizing bs
  case nil => cases bs <;> simp [pure, Except.pure]
  case cons a as hi =>
    rw [List.mapM_cons]
    cases bs
    case nil => simp [bind_eq_ok_iff, pure, Except.pure]
    case cons b bs => simp [bind_eq_ok_iff, pure, Except.pure, hi]

-- The results of one kind are the results for the members of that kind.
theorem mapM_filter {f g : α → Except ε β} {p : α → Bool} {q : β → Bool} (h : as.mapM f = .ok bs)
    (kind : ∀ a b, f a = .ok b → p a = q b) (same : ∀ a b, p a → f a = .ok b → g a = .ok b) :
    (as.filter p).mapM g = .ok (bs.filter q) := by
  rw [mapM_eq_ok_iff] at h ⊢
  induction h
  case nil => exact .nil
  case cons a b as bs found _ hi =>
    have kind := kind a b found
    by_cases hp : p a
    case pos =>
      rw [List.filter_cons_of_pos hp, List.filter_cons_of_pos (kind ▸ hp)]
      exact .cons (same a b hp found) hi
    case neg =>
      rw [List.filter_cons_of_neg hp, List.filter_cons_of_neg (kind ▸ hp)]
      exact hi

-- The first member that fails decides the error.
theorem mapM_eq_error_iff {f : α → Except ε β} {e : ε} : as.mapM f = .error e ↔
    ∃ l a r, as = l ++ a :: r ∧ (∀ x ∈ l, ∃ y, f x = .ok y) ∧ f a = .error e := by
  constructor
  case mp =>
    intro h
    induction as
    case nil => contradiction
    case cons a as hi =>
      rw [List.mapM_cons] at h
      cases bind_eq_error_iff.mp h
      case inl here => exact ⟨[], a, as, rfl, by simp, here⟩
      case inr later =>
        have ⟨b, here, later⟩ := later
        have rest := (bind_eq_error_iff.mp later).resolve_right fun ⟨_, _, other⟩ => by contradiction
        have ⟨l, x, r, eq, first, failed⟩ := hi rest
        exact ⟨a :: l, x, r, by simp [eq], List.forall_mem_cons.mpr ⟨⟨b, here⟩, first⟩, failed⟩
  case mpr =>
    rintro ⟨l, a, r, rfl, first, failed⟩
    induction l
    case nil =>
      rw [List.nil_append, List.mapM_cons, failed]
      rfl
    case cons x l hi =>
      have ⟨⟨y, found⟩, first⟩ := List.forall_mem_cons.mp first
      rw [List.cons_append, List.mapM_cons, found, hi first]
      rfl

theorem of_mapM_eq_error {f : α → Except ε β} {e : ε} (h : as.mapM f = .error e) :
    ∃ a ∈ as, f a = .error e := by
  have ⟨l, a, r, eq, _, failed⟩ := mapM_eq_error_iff.mp h
  exact ⟨a, by simp [eq], failed⟩

theorem exists_left_of_forall₂ {R : α → β → Prop} (h : List.Forall₂ R as bs) (hb : b ∈ bs) :
    ∃ a ∈ as, R a b := by
  induction h
  case nil => simp at hb
  case cons r _ hi =>
    cases List.mem_cons.mp hb
    case inl eq => exact ⟨_, by simp, eq ▸ r⟩
    case inr hb =>
      have ⟨a, ha, r⟩ := hi hb
      exact ⟨a, by simp [ha], r⟩

-- Two relations, one after the other, have something between them.
theorem exists_between_of_forall₂ {R : α → γ → Prop} {S : γ → β → Prop}
    (h : List.Forall₂ (fun a b => ∃ c, R a c ∧ S c b) as bs) :
    ∃ cs, List.Forall₂ R as cs ∧ List.Forall₂ S cs bs := by
  induction h
  case nil => exact ⟨[], .nil, .nil⟩
  case cons here _ hi =>
    have ⟨c, r, s⟩ := here
    have ⟨cs, rs, ss⟩ := hi
    exact ⟨c :: cs, .cons r rs, .cons s ss⟩

-- What comes from different things is different.
theorem nodup_of_forall₂ {R : α → β → Prop} (h : List.Forall₂ R as bs)
    (unique : ∀ a a' b, R a b → R a' b → a = a') (nodup : as.Nodup) : bs.Nodup := by
  induction h
  case nil => exact .nil
  case cons a b as bs here rest hi =>
    have ⟨fresh, nodup⟩ := List.nodup_cons.mp nodup
    refine List.nodup_cons.mpr ⟨fun mem => ?_, hi nodup⟩
    have ⟨a', ha', there⟩ := exists_left_of_forall₂ rest mem
    exact fresh (unique a a' b here there ▸ ha')

-- A relation that can be undone gives back where it started.
theorem map_eq_of_forall₂ {R : α → β → Prop} {f : β → α} (h : List.Forall₂ R as bs)
    (undo : ∀ a ∈ as, ∀ b, R a b → f b = a) : bs.map f = as := by
  induction h
  case nil => rfl
  case cons a b as bs here _ hi =>
    rw [List.map_cons, undo a (by simp) b here, hi fun a ha => undo a (by simp [ha])]

-- What is related to the same things is related.
theorem forall₂_of_common {R : α → γ → Prop} {S : β → γ → Prop} {T : α → β → Prop} {cs : List γ}
    (h : List.Forall₂ R as cs) (h' : List.Forall₂ S bs cs)
    (common : ∀ a ∈ as, ∀ b ∈ bs, ∀ c, R a c → S b c → T a b) : List.Forall₂ T as bs := by
  induction h generalizing bs
  case nil =>
    cases h'
    exact .nil
  case cons a c as cs here _ hi =>
    cases h'
    case cons b bs there rest =>
      refine .cons (common a (by simp) b (by simp) c here there) (hi rest fun a ha b hb => ?_)
      exact common a (by simp [ha]) b (by simp [hb])

theorem exists_append_of_forall₂ {R : α → β → Prop} {l r : List α}
    (h : List.Forall₂ R (l ++ r) bs) :
    ∃ l' r', bs = l' ++ r' ∧ List.Forall₂ R l l' ∧ List.Forall₂ R r r' := by
  induction l generalizing bs
  case nil => exact ⟨[], bs, rfl, .nil, h⟩
  case cons a l hi =>
    cases h
    case cons b bs here rest =>
      have ⟨l', r', eq, left, right⟩ := hi rest
      exact ⟨b :: l', r', by simp [eq], .cons here left, right⟩

theorem forM_eq_ok_iff {f : α → Except ε Unit} :
    as.forM f = .ok () ↔ ∀ a ∈ as, f a = .ok () := by
  induction as
  case nil => simp [pure, Except.pure]
  case cons a as hi =>
    have unfolded : (a :: as).forM f = f a >>= fun _ => as.forM f := rfl
    simp only [unfolded, bind_eq_ok_iff, hi, List.mem_cons, forall_eq_or_imp]
    exact ⟨fun ⟨_, h⟩ => h, fun h => ⟨(), h⟩⟩

theorem of_forM_eq_error {f : α → Except ε Unit} {e : ε} (h : as.forM f = .error e) :
    ∃ a ∈ as, f a = .error e := by
  induction as
  case nil => contradiction
  case cons a as hi =>
    cases bind_eq_error_iff.mp (show f a >>= (fun _ => as.forM f) = .error e from h)
    case inl here => exact ⟨a, by simp, here⟩
    case inr later =>
      have ⟨_, _, later⟩ := later
      have ⟨b, hb, eq⟩ := hi later
      exact ⟨b, by simp [hb], eq⟩

-- A loop that fails does so at one of its steps, up to which the others keep what they keep.
theorem of_foldlM_eq_error {f : β → α → Except ε β} (p : β → Prop)
    (step : ∀ b a b', p b → f b a = .ok b' → p b') {e : ε} (h : p b)
    (eq : as.foldlM f b = .error e) : ∃ b a, p b ∧ f b a = .error e := by
  induction as generalizing b
  case nil => contradiction
  case cons a as hi =>
    rw [List.foldlM_cons] at eq
    cases bind_eq_error_iff.mp eq
    case inl here => exact ⟨b, a, h, here⟩
    case inr later =>
      have ⟨b', here, later⟩ := later
      exact hi (step b a b' h here) later

-- Loops over related lists do the same if their steps do.
theorem foldlM_eq_of_forall₂ {R : α → β → Prop} {f : γ → α → Except ε γ} {g : γ → β → Except ε γ}
    (h : List.Forall₂ R as bs) (step : ∀ c a b, R a b → f c a = g c b) (c : γ) :
    as.foldlM f c = bs.foldlM g c := by
  induction h generalizing c
  case nil => rfl
  case cons a b _ _ here _ hi => simp only [List.foldlM_cons, step c a b here, hi]

-- A loop that succeeds keeps what each of its steps keeps.
theorem of_foldlM_eq_ok {f : β → α → Except ε β} (p : β → Prop)
    (step : ∀ b a b', p b → f b a = .ok b' → p b') {b' : β} (h : p b)
    (eq : as.foldlM f b = .ok b') : p b' := by
  induction as generalizing b
  case nil =>
    cases eq
    exact h
  case cons a as hi =>
    have ⟨b₁, eq₁, eq⟩ := bind_eq_ok_iff.mp eq
    exact hi (step b a b₁ h eq₁) eq

-- A loop whose steps each add to a list, and keep the rest, adds what it runs over.
theorem of_foldlM_concat {f : β → α → Except ε β} (view : β → List α) (rest : β → γ)
    (step : ∀ b a b', f b a = .ok b' → view b' = view b ++ [a] ∧ rest b' = rest b) {b' : β}
    (eq : as.foldlM f b = .ok b') : view b' = view b ++ as ∧ rest b' = rest b := by
  induction as generalizing b
  case nil =>
    cases eq
    simp
  case cons a as hi =>
    have ⟨b₁, eq₁, eq⟩ := bind_eq_ok_iff.mp eq
    have ⟨added, kept⟩ := step b a b₁ eq₁
    have ⟨addedAll, keptAll⟩ := hi eq
    exact ⟨by simp [addedAll, added], keptAll.trans kept⟩

-- A loop that never fails keeps what each of its steps keeps.
theorem exists_foldlM_eq_ok {f : β → α → Except ε β} (as : List α) (p : β → Prop)
    (step : ∀ b, p b → ∀ a ∈ as, ∃ b', f b a = .ok b' ∧ p b') (h : p b) :
    ∃ b', as.foldlM f b = .ok b' ∧ p b' := by
  induction as generalizing b
  case nil => exact ⟨b, rfl, h⟩
  case cons a as hi =>
    have ⟨b₁, eq, h₁⟩ := step b h a (by simp)
    have ⟨b', eq', h'⟩ := hi (fun b hb a ha => step b hb a (by simp [ha])) h₁
    exact ⟨b', by rw [List.foldlM_cons, bind_eq_ok_iff]; exact ⟨b₁, eq, eq'⟩, h'⟩

end CircuitRouting
