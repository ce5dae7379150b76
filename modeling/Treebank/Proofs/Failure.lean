import Mathlib.Data.List.Forall2

/-! Runs that can fail.

A run over a list that nowhere fails is the plain one (`mapM_eq_some_map`,
`allM_eq_some_all`), one that would fail nowhere comes to an end (`exists_mapM_eq_ok`), and
one that does has not failed anywhere (`mem_of_mapM_eq_some`, `forall₂_of_mapM_eq_ok`) and has
kept what each step keeps (`foldlM_invariant`). One that fails does so at the first that fails
(`foldlM_eq_error`, `mapM_eq_error`). -/
namespace Treebank
variable {ε α β : Type}

theorem bind_eq_ok {x : Except ε α} {f : α → Except ε β} {b : β} (h : x >>= f = .ok b) :
    ∃ a, x = .ok a ∧ f a = .ok b := by
  cases x with
  | error error => cases h
  | ok a => exact ⟨a, rfl, h⟩

theorem toOption_eq_some_iff {x : Except ε α} {a : α} : x.toOption = some a ↔ x = .ok a := by
  cases x <;> simp [Except.toOption]

theorem exists_eq_ok {x : Except ε α} (h : x.isOk = true) : ∃ a, x = .ok a := by
  cases x with
  | error error => cases h
  | ok a => exact ⟨a, rfl⟩

theorem mapM_eq_some_map {f : α → Option β} {g : α → β} {xs : List α}
    (h : ∀ x ∈ xs, f x = some (g x)) : xs.mapM f = some (xs.map g) := by
  induction xs with
  | nil => rfl
  | cons x rest ih =>
    have hrest := ih fun y hy => h y (List.mem_cons_of_mem _ hy)
    rw [List.mapM_cons, h x List.mem_cons_self, hrest]
    rfl

theorem allM_eq_some_all {f : α → Option Bool} {p : α → Bool} {xs : List α}
    (h : ∀ x ∈ xs, f x = some (p x)) : xs.allM f = some (xs.all p) := by
  induction xs with
  | nil => rfl
  | cons x rest ih =>
    have hrest := ih fun y hy => h y (List.mem_cons_of_mem _ hy)
    rw [List.allM_cons, h x List.mem_cons_self, hrest, List.all_cons]
    cases p x <;> rfl

theorem forall₂_of_mapM_eq_some {f : α → Option β} {xs : List α} {ys : List β}
    (h : xs.mapM f = some ys) : List.Forall₂ (fun x y => f x = some y) xs ys := by
  induction xs generalizing ys with
  | nil =>
    cases h
    exact .nil
  | cons x rest ih =>
    rw [List.mapM_cons] at h
    obtain ⟨first, hfirst, h⟩ := Option.bind_eq_some_iff.1 h
    obtain ⟨later, hlater, h⟩ := Option.bind_eq_some_iff.1 h
    cases h
    exact .cons hfirst (ih hlater)

theorem exists_mapM_eq_some_iff {f : α → Option β} {xs : List α} :
    (∃ ys, xs.mapM f = some ys) ↔ ∀ x ∈ xs, ∃ y, f x = some y := by
  induction xs with
  | nil => exact ⟨fun _ x hx => absurd hx List.not_mem_nil, fun _ => ⟨[], rfl⟩⟩
  | cons x rest ih =>
    rw [List.forall_mem_cons, ← ih]
    constructor
    · rintro ⟨ys, h⟩
      rw [List.mapM_cons] at h
      obtain ⟨first, hfirst, h⟩ := Option.bind_eq_some_iff.1 h
      obtain ⟨later, hlater, -⟩ := Option.bind_eq_some_iff.1 h
      exact ⟨⟨first, hfirst⟩, later, hlater⟩
    · rintro ⟨⟨first, hfirst⟩, later, hlater⟩
      exact ⟨first :: later, by rw [List.mapM_cons, hfirst, hlater]; rfl⟩

theorem exists_mem_of_forall₂ {R : α → β → Prop} {xs : List α} {ys : List β}
    (h : List.Forall₂ R xs ys) : ∀ x ∈ xs, ∃ y ∈ ys, R x y := by
  induction h with
  | nil => exact fun x hx => absurd hx List.not_mem_nil
  | cons hfirst _ ih =>
    intro x hx
    rcases List.mem_cons.1 hx with rfl | hx
    · exact ⟨_, List.mem_cons_self, hfirst⟩
    · obtain ⟨y, hy, hxy⟩ := ih x hx
      exact ⟨y, List.mem_cons_of_mem _ hy, hxy⟩

theorem mem_of_mapM_eq_some {f : α → Option β} {xs : List α} {ys : List β}
    (h : xs.mapM f = some ys) : ∀ y ∈ ys, ∃ x ∈ xs, f x = some y :=
  exists_mem_of_forall₂ (forall₂_of_mapM_eq_some h).flip

theorem forall₂_of_mapM_eq_ok {f : α → Except ε β} {xs : List α} {ys : List β}
    (h : xs.mapM f = .ok ys) : List.Forall₂ (fun x y => f x = .ok y) xs ys := by
  induction xs generalizing ys with
  | nil =>
    cases h
    exact .nil
  | cons x rest ih =>
    rw [List.mapM_cons] at h
    obtain ⟨first, hfirst, h⟩ := bind_eq_ok h
    obtain ⟨later, hlater, h⟩ := bind_eq_ok h
    cases h
    exact .cons hfirst (ih hlater)

theorem exists_mapM_eq_ok {f : α → Except ε β} {xs : List α} (h : ∀ x ∈ xs, ∃ y, f x = .ok y) :
    ∃ ys, xs.mapM f = .ok ys := by
  induction xs with
  | nil => exact ⟨[], rfl⟩
  | cons x rest ih =>
    obtain ⟨first, hfirst⟩ := h x List.mem_cons_self
    obtain ⟨later, hlater⟩ := ih fun y hy => h y (List.mem_cons_of_mem _ hy)
    refine ⟨first :: later, ?_⟩
    rw [List.mapM_cons, hfirst, hlater]
    rfl

/-- What every step keeps, a run keeps. -/
theorem foldlM_invariant {f : β → α → Except ε β} {P : β → Prop} {start last : β} {xs : List α}
    (h : xs.foldlM f start = .ok last) (hstart : P start)
    (hstep : ∀ b x next, P b → f b x = .ok next → P next) : P last := by
  induction xs generalizing start with
  | nil =>
    cases h
    exact hstart
  | cons x rest ih =>
    rw [List.foldlM_cons] at h
    obtain ⟨next, hnext, h⟩ := bind_eq_ok h
    exact ih h (hstep start x next hstart hnext)

theorem foldlM_eq_error {f : β → α → Except ε β} {start middle : β} {error : ε} {xs ys : List α}
    {x : α} (h : xs.foldlM f start = .ok middle) (hx : f middle x = .error error) :
    (xs ++ x :: ys).foldlM f start = .error error := by
  rw [List.foldlM_append, h]
  show (x :: ys).foldlM f middle = _
  rw [List.foldlM_cons, hx]
  rfl

theorem mapM_eq_error {f : α → Except ε β} {error : ε} {xs ys : List α} {x : α}
    (h : ∀ z ∈ xs, ∃ y, f z = .ok y) (hx : f x = .error error) :
    (xs ++ x :: ys).mapM f = .error error := by
  obtain ⟨before, hbefore⟩ := exists_mapM_eq_ok h
  rw [List.mapM_append, hbefore, List.mapM_cons, hx]
  rfl

theorem forall_mem_iff_of_forall₂ {R : α → β → Prop} {P : α → Prop} {Q : β → Prop} {xs : List α}
    {ys : List β} (h : List.Forall₂ R xs ys) (hiff : ∀ x y, R x y → (P x ↔ Q y)) :
    (∀ x ∈ xs, P x) ↔ ∀ y ∈ ys, Q y := by
  induction h with
  | nil => simp
  | cons hfirst _ ih => rw [List.forall_mem_cons, List.forall_mem_cons, ih, hiff _ _ hfirst]

/-- Every element of a run that has not failed has its result there. -/
theorem exists_of_mapM_eq_ok {f : α → Except ε β} {xs : List α} {ys : List β}
    (h : xs.mapM f = .ok ys) : ∀ x ∈ xs, ∃ y ∈ ys, f x = .ok y :=
  exists_mem_of_forall₂ (forall₂_of_mapM_eq_ok h)

/-- What every result of a run has, its results have. -/
theorem forall_mem_of_mapM_eq_ok {f : α → Except ε β} {Q : β → Prop} {xs : List α} {ys : List β}
    (h : xs.mapM f = .ok ys) (hresult : ∀ x y, f x = .ok y → Q y) : ∀ y ∈ ys, Q y :=
  (forall_mem_iff_of_forall₂ (P := fun _ => True) (forall₂_of_mapM_eq_ok h) fun x y hxy =>
    iff_of_true trivial (hresult x y hxy)).1 fun _ _ => trivial

end Treebank
