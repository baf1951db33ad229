import ContractLang.Check.Effect

/-!
# Computations that decide a property

A check ends with the first error, so all that matters about its parts is what they answer
if they succeed. A computation *decides* a property of answers
(`ContractLang.Check.Decides`) if its answers are exactly the things with the property,
from whatever unit the check may have come to, and leaves another such unit behind.
-/

namespace ContractLang

namespace Check

variable {σ α β : Type} {K : CompilationUnit → Prop}

/-- A computation answers with the things that have a property, and with nothing else. -/
def Decides (K : CompilationUnit → Prop) (action : Check σ α) (Q : α → Prop) : Prop :=
  ∀ s, K s.code → ∀ a,
    ((exec action s).1 = .ok a ↔ Q a) ∧
      ((exec action s).1 = .ok a → K (exec action s).2.code)

namespace Decides

variable {action : Check σ α} {Q Q' : α → Prop}

/-- The property may be put in other words. -/
theorem congr (h : Decides K action Q) (hQ : ∀ a, Q a ↔ Q' a) : Decides K action Q' :=
  fun s hs a => ⟨(h s hs a).1.trans (hQ a), (h s hs a).2⟩

theorem pure (a : α) : Decides K (pure a : Check σ α) (· = a) := fun _ hs _ =>
  ⟨⟨fun h => (Except.ok.inj h).symm, fun h => congrArg Except.ok h.symm⟩, fun _ => hs⟩

/-- A computation that always fails answers with nothing. -/
theorem fail (h : ∀ s : CheckState σ, K s.code → ∃ halt, (exec action s).1 = .error halt) :
    Decides K action fun _ => False := fun s hs a => by
  obtain ⟨halt, hfail⟩ := h s hs
  exact ⟨⟨fun heq => (nomatch hfail.symm.trans heq), False.elim⟩,
    fun heq => (nomatch hfail.symm.trans heq)⟩

theorem liftExcept (answer : Except Error α) :
    Decides K (liftExcept answer : Check σ α) fun a => answer = .ok a := by
  cases answer with
  | ok a => exact (pure a).congr fun b => ⟨fun h => congrArg Except.ok h.symm,
      fun h => (Except.ok.inj h).symm⟩
  | error e => exact (fail fun _ _ => ⟨_, rfl⟩).congr fun a => ⟨False.elim, nofun⟩

/-- The parts of a sequence decide one after the other. -/
theorem bind {f : α → Check σ β} {P : α → β → Prop} (h : Decides K action Q)
    (hf : ∀ a, Q a → Decides K (f a) (P a)) :
    Decides K (action >>= f) fun b => ∃ a, Q a ∧ P a b := by
  intro s hs b
  rw [exec_bind]
  have hfirst := h s hs
  generalize exec action s = out at hfirst
  obtain ⟨r, t⟩ := out
  cases r with
  | error halt =>
    refine ⟨⟨nofun, ?_⟩, nofun⟩
    rintro ⟨a, ha, -⟩
    exact nomatch (hfirst a).1.mpr ha
  | ok a =>
    have ha : Q a := (hfirst a).1.mp rfl
    have hnext := hf a ha t ((hfirst a).2 rfl) b
    refine ⟨⟨fun heq => ⟨a, ha, hnext.1.mp heq⟩, ?_⟩, hnext.2⟩
    rintro ⟨a', ha', hb⟩
    -- There is only one answer of the first part that the rest can have gone on from.
    obtain rfl : a = a' := Except.ok.inj ((hfirst a').1.mpr ha')
    exact hnext.1.mpr hb

/-- One check after the other. -/
theorem seq {f : Check σ β} {P : β → Prop} {p : Prop} {check : Check σ Unit}
    (h : Decides K check fun _ => p) (hf : p → Decides K f P) :
    Decides K (check >>= fun _ => f) fun b => p ∧ P b :=
  (h.bind fun _ hp => hf hp).congr fun _ => ⟨fun ⟨_, hp, hb⟩ => ⟨hp, hb⟩, fun h => ⟨(), h⟩⟩

theorem discard (h : Decides K action Q) :
    Decides K (discard action) fun _ => ∃ a, Q a := by
  rw [discard_eq_bind]
  exact (h.bind fun _ _ => pure ()).congr fun _ => by simp

/-- What a computation reads of the unit is that of one that the check may come to. -/
theorem code {f : CompilationUnit → Check σ α} (h : ∀ c, K c → Decides K (f c) Q) :
    Decides K (Check.code >>= f) Q := by
  intro s hs
  rw [exec_bind, exec_code]
  exact h s.code hs s hs

theorem node {id : NodeId} {f : Node → Check σ α}
    (h : ∀ c, K c → Decides K (f (c.node id)) Q) : Decides K (Check.node id >>= f) Q := by
  intro s hs
  rw [exec_bind, exec_node]
  exact h s.code hs s hs

/-- A change that the check may make to the unit is no decision. -/
theorem modifyCode {f : CompilationUnit → CompilationUnit}
    (h : ∀ c, K c → K (f c)) :
    Decides K (Check.modifyCode f : Check σ Unit) fun _ => True :=
  fun s hs _ => ⟨⟨fun _ => trivial, fun _ => rfl⟩, fun _ => h s.code hs⟩

theorem rejectIf (bad : Prop) [Decidable bad] {failure : Check σ Unit}
    (h : Decides K failure fun _ => False) :
    Decides K (Check.rejectIf bad failure) fun _ => ¬bad := by
  unfold Check.rejectIf
  split
  · next hbad => exact h.congr fun _ => ⟨False.elim, fun h => h hbad⟩
  · next hgood => exact (pure ()).congr fun _ => ⟨fun _ => hgood, fun _ => rfl⟩

theorem located (h : Decides K action Q) (position : Option Position) :
    Decides K (located position action) Q := by
  intro s hs a
  have hfirst := h s hs a
  rw [exec_located]
  generalize exec action s = out at hfirst
  match out with
  | (.ok b, t) => exact hfirst
  | (.error .outOfDepth, t) => exact hfirst
  | (.error (.fault e), t) => exact ⟨⟨nofun, fun ha => nomatch hfirst.1.mpr ha⟩, nofun⟩

/-- A list is in order if all its members are. -/
theorem forM {γ : Type} {f : γ → Check σ Unit} {P : γ → Prop} {xs : List γ}
    (h : ∀ x ∈ xs, Decides K (f x) fun _ => P x) :
    Decides K (xs.forM f) fun _ => ∀ x ∈ xs, P x := by
  induction xs with
  | nil => exact (pure ()).congr fun _ => ⟨fun _ => nofun, fun _ => rfl⟩
  | cons x xs ih =>
    change Decides K (f x >>= fun _ => xs.forM f) _
    refine ((h x List.mem_cons_self).seq fun _ =>
      ih fun y hy => h y (List.mem_cons_of_mem x hy)).congr fun _ => ?_
    rw [List.forall_mem_cons]

end Decides

end Check

end ContractLang
