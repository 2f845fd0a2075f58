import Mathlib.Data.List.Forall2

/-!
# Results that are not errors

A sequence of steps succeeds only if each of its steps does, with or without a
state.  These are the handles by which a successful computation is taken apart.  Errors
are changed step by step.
-/

namespace TypeGuard

section

variable {σ ε α β : Type}

theorem bind_eq_ok {first : Except ε α} {next : α → Except ε β} {result : β} :
    (first >>= next) = .ok result ↔ ∃ value, first = .ok value ∧ next value = .ok result := by
  cases first with
  | error problem => simp [bind, Except.bind]
  | ok value => simp [bind, Except.bind]

theorem bind_eq_error {first : Except ε α} {next : α → Except ε β} {problem : ε} :
    (first >>= next) = .error problem ↔ first = .error problem ∨
      ∃ value, first = .ok value ∧ next value = .error problem := by
  cases first with
  | error other => simp [bind, Except.bind]
  | ok value => simp [bind, Except.bind]

theorem run_bind_eq_ok {first : StateT σ (Except ε) α} {next : α → StateT σ (Except ε) β}
    {before : σ} {result : β × σ} :
    (first >>= next).run before = .ok result ↔
      ∃ value middle, first.run before = .ok (value, middle) ∧
        (next value).run middle = .ok result := by
  simp [StateT.run_bind, bind_eq_ok]

theorem run_bind_eq_error {first : StateT σ (Except ε) α} {next : α → StateT σ (Except ε) β}
    {before : σ} {problem : ε} :
    (first >>= next).run before = .error problem ↔ first.run before = .error problem ∨
      ∃ value middle, first.run before = .ok (value, middle) ∧
        (next value).run middle = .error problem := by
  simp [StateT.run_bind, bind_eq_error]

theorem forall₂_of_mapM {f : α → Except ε β} {items : List α} {results : List β}
    (h : items.mapM f = .ok results) :
    List.Forall₂ (fun item result => f item = .ok result) items results := by
  induction items generalizing results with
  | nil =>
      cases h
      exact .nil
  | cons item rest ih =>
      rw [List.mapM_cons] at h
      obtain ⟨first, hfirst, h⟩ := bind_eq_ok.mp h
      obtain ⟨others, hothers, h⟩ := bind_eq_ok.mp h
      cases h
      exact .cons hfirst (ih hothers)

theorem exists_mem_of_mapM_eq_error {f : α → Except ε β} {items : List α} {problem : ε}
    (h : items.mapM f = .error problem) : ∃ item ∈ items, f item = .error problem := by
  induction items with
  | nil => cases h
  | cons item rest ih =>
      rw [List.mapM_cons] at h
      rcases bind_eq_error.mp h with hitem | ⟨first, -, h⟩
      · exact ⟨item, List.mem_cons_self, hitem⟩
      rcases bind_eq_error.mp h with hrest | ⟨others, -, h⟩
      · obtain ⟨other, hmem, hfails⟩ := ih hrest
        exact ⟨other, List.mem_cons_of_mem _ hmem, hfails⟩
      · cases h

theorem exists_mem_of_forall₂ {related : α → β → Prop} {first : List α}
    {second : List β} (h : List.Forall₂ related first second) :
    ∀ a ∈ first, ∃ b ∈ second, related a b := by
  induction h with
  | nil => simp
  | @cons a b first second hab _ ih =>
      refine List.forall_mem_cons.mpr ⟨⟨b, List.mem_cons_self, hab⟩, fun other hother => ?_⟩
      obtain ⟨partner, hmem, hrelated⟩ := ih other hother
      exact ⟨partner, List.mem_cons_of_mem _ hmem, hrelated⟩

theorem forall₂_flip_of_mem {related : α → β → Prop} {back : β → α → Prop} {first : List α}
    {second : List β} (h : List.Forall₂ related first second)
    (hback : ∀ a ∈ first, ∀ b ∈ second, related a b → back b a) :
    List.Forall₂ back second first := by
  induction h with
  | nil => exact .nil
  | cons hab _ ih =>
      refine .cons (hback _ List.mem_cons_self _ List.mem_cons_self hab) (ih ?_)
      exact fun a ha b hb => hback a (List.mem_cons_of_mem _ ha) b (List.mem_cons_of_mem _ hb)

theorem forall₂_trans_of_mem {γ : Type} {related : α → β → Prop} {next : β → γ → Prop}
    {both : α → γ → Prop} {first : List α} {second : List β} {third : List γ}
    (h : List.Forall₂ related first second) (hnext : List.Forall₂ next second third)
    (hboth : ∀ a, ∀ b ∈ second, ∀ c ∈ third, related a b → next b c → both a c) :
    List.Forall₂ both first third := by
  induction h generalizing third with
  | nil =>
      cases hnext
      exact .nil
  | cons hab _ ih =>
      cases hnext with
      | cons hbc hrest =>
          refine .cons (hboth _ _ List.mem_cons_self _ List.mem_cons_self hab hbc) (ih hrest ?_)
          intro a b hb c hc
          exact hboth a b (List.mem_cons_of_mem _ hb) c (List.mem_cons_of_mem _ hc)

theorem forall₂_iff_of_mem {related other : α → β → Prop} {first : List α} {second : List β}
    (h : ∀ a ∈ first, ∀ b ∈ second, (related a b ↔ other a b)) :
    List.Forall₂ related first second ↔ List.Forall₂ other first second := by
  induction first generalizing second with
  | nil => cases second <;> simp
  | cons a first ih =>
      cases second with
      | nil => simp
      | cons b second =>
          rw [List.forall₂_cons, List.forall₂_cons, h a List.mem_cons_self b List.mem_cons_self,
            ih fun a ha b hb => h a (List.mem_cons_of_mem _ ha) b (List.mem_cons_of_mem _ hb)]

theorem eq_of_forall₂ {related other : α → β → Prop} {items : List α}
    {first second : List β} (hfirst : List.Forall₂ related items first)
    (hsecond : List.Forall₂ other items second)
    (h : ∀ item a b, related item a → other item b → a = b) : first = second := by
  have heq : List.Forall₂ (fun a b => a = b) first second :=
    forall₂_trans_of_mem hfirst.flip hsecond fun a item _ b _ => h item a b
  rwa [List.forall₂_eq_eq_eq] at heq

theorem eq_map_of_forall₂ {related : α → β → Prop} {f : α → β} {items : List α}
    {results : List β} (hresults : List.Forall₂ related items results)
    (h : ∀ item ∈ items, ∀ result, related item result → result = f item) :
    results = items.map f := by
  induction hresults with
  | nil => rfl
  | @cons item result items results hfirst _ ih =>
      rw [List.forall_mem_cons] at h
      simp [h.1 result hfirst, ih h.2]

/-- What is seen of a state after a run follows from what was seen of it before, if one step
determines it. -/
theorem foldlM_ok_eq_foldl {run : σ → α → Except ε σ} {next : β → α → β} (seen : σ → β)
    (hstep : ∀ {before after : σ} {item : α},
      run before item = .ok after → seen after = next (seen before) item)
    {items : List α} {first last : σ} (h : items.foldlM run first = .ok last) :
    seen last = items.foldl next (seen first) := by
  induction items generalizing first with
  | nil =>
      cases h
      rfl
  | cons item rest ih =>
      rw [List.foldlM_cons] at h
      obtain ⟨middle, hmiddle, hrest⟩ := bind_eq_ok.mp h
      rw [List.foldl_cons, ← hstep hmiddle]
      exact ih hrest

theorem eq_ok_of_toOption {result : Except ε α} {value : α}
    (h : result.toOption = some value) : result = .ok value := by
  cases result with
  | error problem => cases h
  | ok other => exact congrArg Except.ok (Option.some.inj h)

/-! ## Changing errors -/

variable {δ : Type} (change : ε → δ)

theorem mapError_bind (first : Except ε α) (next : α → Except ε β) :
    (first >>= next).mapError change =
      first.mapError change >>= fun value => (next value).mapError change := by
  cases first <;> rfl

theorem mapError_mapM (f : α → Except ε β) (items : List α) :
    (items.mapM f).mapError change = items.mapM fun item => (f item).mapError change := by
  induction items with
  | nil => rfl
  | cons item rest ih =>
      simp only [List.mapM_cons, mapError_bind, ih]
      rfl

@[simp] theorem toOption_mapError (result : Except ε α) :
    (result.mapError change).toOption = result.toOption := by
  cases result <;> rfl

end

end TypeGuard
