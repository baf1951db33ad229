import ContractLang.Proofs.Aborts.Compare
import ContractLang.Proofs.Aborts.Lag
import ContractLang.Proofs.Typing.Pursuit

/-!
# The lenient run follows the strict one

A run of the lenient checker is compared with one of the strict checker that gets an answer
(`ContractLang.Simulates`). If the unit of the lenient run lags behind that of the strict one, then
it does so afterwards, and the answers are the same, apart from types that are those of aborts
(`ContractLang.Ty.Fades`). This is so as long as the unit that the strict run ends with uses mute
functions for what they do only, and the comparison has found no return type of another function
that comes from aborts alone (`ContractLang.Fair`). Both are known at the end only, so what the
rules carry along, looking ahead, is that a part of the strict run has come before its end
(`ContractLang.Before`).

The answer of the lenient run is one for all units that lag behind. That is what the comparison of
return types is good for: it is made in the strict unit itself. Only the type of a call of a mute
function depends on the unit (`ContractLang.Trails`), because it vanishes unless it is on record
(`ContractLang.Ty.Vanishes`). Such a type can be used for what is the same with it and without it.
-/

namespace ContractLang

open Check

/-! ### Ends of the strict run -/

/-- A state of the strict run has come before another one. -/
structure Before (s s' : CheckState (List Comparison)) : Prop where
  code : s.code.Precedes s'.code
  notes : s.notes ⊆ s'.notes

/-- A state of the strict run has come before its end with the unit `v`, and return types that come
from aborts alone have been found of mute functions only. -/
structure Fair (v : CompilationUnit) (s : CheckState (List Comparison)) : Prop where
  code : s.code.Precedes v
  notes : ∀ c ∈ s.notes, ¬v.Mute c.function → c.KeepsType

section Ends

variable {v : CompilationUnit} {s t u : CheckState (List Comparison)}

theorem Before.refl (s : CheckState (List Comparison)) : Before s s :=
  ⟨.refl _, List.Subset.refl _⟩

theorem Before.trans (h : Before s t) (h' : Before t u) : Before s u :=
  ⟨h.code.trans h'.code, List.Subset.trans h.notes h'.notes⟩

theorem Before.of_code {code : CompilationUnit} (h : s.code.Precedes code) :
    Before s { s with code } :=
  ⟨h, List.Subset.refl _⟩

theorem Fair.before (h : Fair v t) (hst : Before s t) : Fair v s :=
  ⟨hst.code.trans h.code, fun c hc => h.notes c (hst.notes hc)⟩

end Ends

/-! ### Simulation -/

/-- A type is the same, or that of an abort, which the lenient checker does not give any. -/
def Ty.Fades (a b : Ty) : Prop :=
  b = a ∨ a = .uint64 ∧ ¬b.isKnown

theorem Ty.Fades.refl (a : Ty) : a.Fades a := .inl rfl

/-- A type is the same, or has vanished. -/
def Ty.Vanishes (a b : Ty) : Prop :=
  b = a ∨ a = .uint64 ∧ b = .unknown

theorem Ty.Vanishes.fades {a b : Ty} (h : a.Vanishes b) : a.Fades b :=
  h.imp_right fun ⟨hword, hnone⟩ => ⟨hword, by rw [hnone]; decide⟩

/-- The type of a descriptor may have faded where its name is mute. -/
theorem Descriptor.Behind.fades {mute : Prop} {d d' : Descriptor} (h : d.Behind mute d') :
    d.type.Fades d'.type :=
  h.type.imp_right And.right

/-- What is known of a type that is that of an abort, if anything. -/
theorem Ty.eq_of_isKnown {type w : Ty} (h : type = .unknown ∨ type = w) (hknown : type.isKnown) :
    type = w :=
  h.resolve_left fun hnone => by
    rw [hnone] at hknown
    cases hknown

/-- Types that have faded clash no more than before. -/
theorem Ty.Fades.clashes {a a' b b' : Ty} (ha : a.Fades a') (hb : b.Fades b')
    (h : ¬a.clashes b) : ¬a'.clashes b' := by
  rcases ha with rfl | ⟨-, ha⟩
  · rcases hb with rfl | ⟨-, hb⟩
    · exact h
    · simp [Ty.clashes, hb]
  · simp [Ty.clashes, ha]

/-- The type of one more exit replaces that of the exits so far, if it is known. -/
theorem Ty.Fades.unify {a a' b b' : Ty} (ha : a.Fades a') (hb : b.Fades b')
    (h : ¬a.clashes b) :
    (if b.isKnown then b else a).Fades (if b'.isKnown then b' else a') := by
  rcases hb with rfl | ⟨rfl, hb⟩
  · split
    · exact .refl _
    · exact ha
  · rw [if_pos (show Ty.uint64.isKnown from rfl), if_neg hb]
    by_cases ha' : a'.isKnown
    · obtain rfl : a' = a := ha.resolve_right fun hlost => hlost.2 ha'
      cases a' <;> simp_all [Ty.clashes, Ty.isKnown, Ty.Fades]
    · exact .inr ⟨rfl, ha'⟩

section

variable {α β : Type} {v : CompilationUnit}

/-- From a state, a computation gives the answer `y` and a unit that lags behind `c`, unless it is
nested too deeply. -/
def Attains (b : Check Unit α) (t : CheckState Unit) (y : α) (c : CompilationUnit) : Prop :=
  (∃ t', exec b t = (.error .outOfDepth, t')) ∨ ∃ t', exec b t = (.ok y, t') ∧ c.Lags t'.code

/-- Where a strict computation gives an answer, it goes forward, and the lenient one gives a related
answer, the same in all units that lag behind. -/
def Simulates (v : CompilationUnit) (V : α → α → Prop) (a : Check (List Comparison) α)
    (b : Check Unit α) : Prop :=
  ∀ s x s', exec a s = (.ok x, s') → v.SameBuild s.code → Before s s' ∧
    (Fair v s' → ∃ y, V x y ∧
      ∀ t : CheckState Unit, s.code.Lags t.code → Attains b t y s'.code)

/-- Where a strict computation gives an answer, it goes forward, and the lenient one gives related
answers, one for each unit that lags behind. -/
def Trails (v : CompilationUnit) (V : α → α → Prop) (a : Check (List Comparison) α)
    (b : Check Unit α) : Prop :=
  ∀ s x s', exec a s = (.ok x, s') → v.SameBuild s.code → Before s s' ∧
    (Fair v s' → ∀ t : CheckState Unit, s.code.Lags t.code → ∃ y, V x y ∧ Attains b t y s'.code)

namespace Attains

variable {b : Check Unit α} {t : CheckState Unit} {y : α} {c c' : CompilationUnit}

theorem pure (h : c.Lags t.code) : Attains (Pure.pure y) t y c :=
  .inr ⟨t, rfl, h⟩

theorem congr {b' : Check Unit α} (hexec : exec b t = exec b' t) (h : Attains b' t y c) :
    Attains b t y c := by
  unfold Attains
  rw [hexec]
  exact h

theorem bind {g : α → Check Unit β} {z : β} (h : Attains b t y c)
    (hg : ∀ t' : CheckState Unit, c.Lags t'.code → Attains (g y) t' z c') :
    Attains (b >>= g) t z c' := by
  unfold Attains
  rw [exec_bind]
  rcases h with ⟨t', hexec⟩ | ⟨t', hexec, ht'⟩
  · rw [hexec]
    exact .inl ⟨t', rfl⟩
  · rw [hexec]
    exact hg t' ht'

theorem code {g : CompilationUnit → Check Unit α} (h : Attains (g t.code) t y c) :
    Attains (Check.code >>= g) t y c := h

theorem modifyCode {g : CompilationUnit → CompilationUnit} {next : Unit → Check Unit α}
    (h : Attains (next ()) { t with code := g t.code } y c) :
    Attains (Check.modifyCode g >>= next) t y c := h

theorem rejectIf {bad : Prop} [Decidable bad] {failure : Check Unit Unit} (hbad : ¬bad)
    (h : c.Lags t.code) : Attains (rejectIf bad failure) t () c := by
  unfold Check.rejectIf
  rw [if_neg hbad]
  exact .pure h

/-- What is attained is attained with any treatment of errors. -/
theorem onFault {handler : Error → Check Unit α} (h : Attains b t y c) :
    Attains (b.onFault handler) t y c := by
  unfold Attains
  rw [exec_onFault]
  rcases h with ⟨t', hexec⟩ | ⟨t', hexec, ht'⟩
  · rw [hexec]
    exact .inl ⟨t', rfl⟩
  · rw [hexec]
    exact .inr ⟨t', rfl, ht'⟩

/-- What is on record is the answer. -/
theorem memo_of_isKnown {x : NodeId} {infer : Check Unit Ty} {type : Ty}
    (htype : (t.code.node x).type = type) (hknown : type.isKnown) (h : c.Lags t.code) :
    Attains (memo x infer) t type c := by
  unfold Attains
  rw [exec_memo, htype, if_pos hknown]
  exact .inr ⟨t, rfl, h⟩

/-- What is not on record is inferred, and goes on record. -/
theorem memo {x : NodeId} {infer : Check Unit Ty} {type : Ty}
    (hunknown : ¬(t.code.node x).type.isKnown) (h : Attains infer t type c)
    (hrecord : ∀ u : CompilationUnit, c.Lags u →
      c'.Lags (if type.isKnown then u.setType x type else u)) :
    Attains (memo x infer) t type c' := by
  unfold Attains
  rw [exec_memo, if_neg hunknown]
  rcases h with ⟨t', hexec⟩ | ⟨t', hexec, ht'⟩
  · rw [hexec]
    exact .inl ⟨t', rfl⟩
  · rw [hexec]
    refine .inr ⟨_, rfl, ?_⟩
    convert hrecord t'.code ht' using 1
    split <;> rfl

end Attains

theorem discard_bind {σ : Type} (a : Check σ α) (f : α → Check σ β) :
    discard (a >>= f) = a >>= fun x => discard (f x) := by
  simp only [discard_eq_bind, bind_assoc]

namespace Simulates

variable {V : α → α → Prop} {W : β → β → Prop} {a : Check (List Comparison) α}
  {b : Check Unit α}

theorem pure {x y : α} (h : V x y) : Simulates v V (pure x) (pure y) := by
  intro s _ _ hexec _
  cases hexec
  exact ⟨.refl s, fun _ => ⟨y, h, fun t ht => .pure ht⟩⟩

/-- What never gives an answer needs no comparison. -/
theorem of_faults (h : Faults a) : Simulates v V a b := by
  intro s x s' hexec
  obtain ⟨e, he⟩ := h s
  rw [he] at hexec
  cases hexec

theorem mono {V' : α → α → Prop} (h : Simulates v V a b) (hV : ∀ x y, V x y → V' x y) :
    Simulates v V' a b := fun s x s' hexec hs =>
  (h s x s' hexec hs).imp_right fun hfollow hfair =>
    (hfollow hfair).imp fun y hy => ⟨hV x y hy.1, hy.2⟩

theorem liftExcept (answer : Except Error α) :
    Simulates v Eq (liftExcept answer) (Check.liftExcept answer) := by
  cases answer with
  | ok x => exact .pure rfl
  | error e => exact of_faults fun _ => ⟨e, rfl⟩

/-- An answer that is the same in all units is one for each of them. -/
theorem trails (h : Simulates v V a b) : Trails v V a b := fun s x s' hexec hs =>
  (h s x s' hexec hs).imp_right fun hfollow hfair t ht =>
    (hfollow hfair).imp fun _ hy => ⟨hy.1, hy.2 t ht⟩

/-- Sequences go forward part by part. -/
theorem before_of_bind {f : α → Check (List Comparison) β} {g : α → Check Unit β}
    (hV : ∀ x, V x x) (h : Trails v V a b) (hf : ∀ x y, V x y → Simulates v W (f x) (g y))
    {s s' : CheckState (List Comparison)} {z : β} (hexec : exec (a >>= f) s = (.ok z, s'))
    (hs : v.SameBuild s.code) :
    ∃ x u, exec a s = (.ok x, u) ∧ exec (f x) u = (.ok z, s') ∧ v.SameBuild u.code ∧
      Before s u ∧ Before u s' := by
  obtain ⟨x, u, ha, hfx⟩ := exec_bind_eq_ok hexec
  have hsu : Before s u := (h s x u ha hs).1
  have hu : v.SameBuild u.code := hs.trans hsu.code.build
  exact ⟨x, u, ha, hfx, hu, hsu, (hf x x (hV x) u z s' hfx hu).1⟩

/-- Sequences are compared part by part. -/
theorem bind {f : α → Check (List Comparison) β} {g : α → Check Unit β} (hV : ∀ x, V x x)
    (h : Simulates v V a b) (hf : ∀ x y, V x y → Simulates v W (f x) (g y)) :
    Simulates v W (a >>= f) (b >>= g) := by
  intro s z s' hexec hs
  obtain ⟨x, u, ha, hfx, hu, hsu, hus'⟩ := before_of_bind hV h.trails hf hexec hs
  refine ⟨hsu.trans hus', fun hfair => ?_⟩
  obtain ⟨y, hxy, hattains⟩ := (h s x u ha hs).2 (hfair.before hus')
  obtain ⟨w, hzw, hrest⟩ := (hf x y hxy u z s' hfx hu).2 hfair
  exact ⟨w, hzw, fun t ht => (hattains t ht).bind fun t' ht' => hrest t' ht'⟩

theorem bindEq {f : α → Check (List Comparison) β} {g : α → Check Unit β}
    (h : Simulates v Eq a b) (hf : ∀ x, Simulates v W (f x) (g x)) :
    Simulates v W (a >>= f) (b >>= g) :=
  h.bind (fun _ => rfl) fun x _ hxy => hxy ▸ hf x

/-- What follows on a check that passes in both runs knows that it has passed. -/
theorem rejectIf_bind {bad bad' : Prop} [Decidable bad] [Decidable bad']
    {failure : Check (List Comparison) Unit} {failure' : Check Unit Unit} (hbad : ¬bad → ¬bad')
    (hfailure : Faults failure) (h : ¬bad → Simulates v V a b) :
    Simulates v V (Check.rejectIf bad failure >>= fun _ => a)
      (Check.rejectIf bad' failure' >>= fun _ => b) := by
  unfold Check.rejectIf
  by_cases hpass : bad
  · rw [if_pos hpass]
    refine of_faults fun s => ?_
    obtain ⟨e, he⟩ := hfailure s
    exact ⟨e, by rw [exec_bind, he]⟩
  · rw [if_neg hpass, if_neg (hbad hpass), pure_bind, pure_bind]
    exact h hpass

theorem rejectIf {bad bad' : Prop} [Decidable bad] [Decidable bad']
    {failure : Check (List Comparison) Unit} {failure' : Check Unit Unit} (hbad : ¬bad → ¬bad')
    (hfailure : Faults failure) :
    Simulates v Eq (rejectIf bad failure) (Check.rejectIf bad' failure') := by
  have hpass : Simulates v Eq (Check.rejectIf bad failure >>= fun _ => Pure.pure ())
      (Check.rejectIf bad' failure' >>= fun _ => Pure.pure ()) :=
    rejectIf_bind hbad hfailure fun _ => .pure rfl
  simpa only [bind_pure_unit] using hpass

/-- Treating errors makes no difference where they are not treated so that an answer comes out. -/
theorem onFault {f : Error → Check (List Comparison) α} {g : Error → Check Unit α}
    (h : Simulates v V a b) (hf : ∀ e, Faults (f e)) :
    Simulates v V (a.onFault f) (b.onFault g) := by
  intro s x s' hexec hs
  rw [exec_onFault] at hexec
  split at hexec
  · next e u _ =>
    obtain ⟨e', he'⟩ := hf e u
    rw [he'] at hexec
    cases hexec
  · obtain ⟨hbefore, hfollow⟩ := h s x s' hexec hs
    refine ⟨hbefore, fun hfair => ?_⟩
    obtain ⟨y, hxy, hattains⟩ := hfollow hfair
    exact ⟨y, hxy, fun t ht => (hattains t ht).onFault⟩

theorem located (position : Option Position) (h : Simulates v V a b) :
    Simulates v V (located position a) (Check.located position b) :=
  h.onFault fun _ _ => ⟨_, rfl⟩

theorem forM {γ : Type} {f : γ → Check (List Comparison) Unit} {g : γ → Check Unit Unit}
    {xs : List γ} (h : ∀ x ∈ xs, Simulates v Eq (f x) (g x)) :
    Simulates v Eq (xs.forM f) (xs.forM g) := by
  induction xs with
  | nil => exact .pure rfl
  | cons x xs ih =>
    exact (h x List.mem_cons_self).bindEq fun _ => ih fun y hy => h y (List.mem_cons_of_mem x hy)

theorem foldlM {γ : Type} {f : α → γ → Check (List Comparison) α} {g : α → γ → Check Unit α}
    (hV : ∀ x, V x x) {xs : List γ}
    (h : ∀ z ∈ xs, ∀ x y, V x y → Simulates v V (f x z) (g y z)) {x y : α} (hxy : V x y) :
    Simulates v V (xs.foldlM f x) (xs.foldlM g y) := by
  induction xs generalizing x y with
  | nil => exact .pure hxy
  | cons z zs ih =>
    rw [List.foldlM_cons, List.foldlM_cons]
    exact (h z List.mem_cons_self x y hxy).bind hV fun x' y' hxy' =>
      ih (fun w hw => h w (List.mem_cons_of_mem z hw)) hxy'

/-! ### Reading and writing -/

/-- The unit is read for what is the same in units that lag behind. -/
theorem code {f : CompilationUnit → Check (List Comparison) α}
    {g : CompilationUnit → Check Unit α}
    (hg : ∀ c c' : CompilationUnit, c.Precedes v → c.Lags c' → g c' = g c)
    (h : ∀ c, v.SameBuild c → Simulates v V (f c) (g c)) :
    Simulates v V (Check.code >>= f) (Check.code >>= g) := by
  intro s x s' hexec hs
  rw [exec_bind, exec_code] at hexec
  obtain ⟨hbefore, hfollow⟩ := h s.code hs s x s' hexec hs
  refine ⟨hbefore, fun hfair => ?_⟩
  obtain ⟨y, hxy, hattains⟩ := hfollow hfair
  refine ⟨y, hxy, fun t ht => ?_⟩
  unfold Attains
  rw [exec_bind, exec_code]
  dsimp only
  rw [hg s.code t.code (hfair.before hbefore).code ht]
  exact hattains t ht

theorem node {x : NodeId} {f : Node → Check (List Comparison) α} {g : Node → Check Unit α}
    (hg : ∀ c c' : CompilationUnit, c.Precedes v → c.Lags c' → g (c'.node x) = g (c.node x))
    (h : ∀ c, v.SameBuild c → Simulates v V (f (c.node x)) (g (c.node x))) :
    Simulates v V (Check.node x >>= f) (Check.node x >>= g) :=
  code (f := fun c => f (c.node x)) (g := fun c => g (c.node x)) hg h

/-- A type goes on record. -/
theorem before_record {s : CheckState (List Comparison)} {x : NodeId} {type : Ty} :
    Before s { s with code := if type.isKnown then s.code.setType x type else s.code } := by
  refine .of_code ?_
  split
  · exact .modifyNode fun _ => rfl
  · exact .refl _

/-- The unit is changed in the same way in both runs. -/
theorem modifyCode {g : CompilationUnit → CompilationUnit}
    (hprecedes : ∀ c : CompilationUnit, c.Precedes (g c))
    (hlags : ∀ c c' : CompilationUnit, c.Lags c' → (g c).Lags (g c')) :
    Simulates v Eq (modifyCode g) (Check.modifyCode g) := by
  intro s _ s' hexec _
  cases hexec
  exact ⟨.of_code (hprecedes s.code), fun _ => ⟨_, rfl, fun t ht => .inr ⟨_, rfl, hlags _ _ ht⟩⟩⟩

/-- What is on record for anything but a call of a mute function is on record in both units. -/
theorem memo {x : NodeId} {infer : Check (List Comparison) Ty} {infer' : Check Unit Ty}
    (hx : ¬v.CallsMute x) (h : Simulates v Eq infer infer') :
    Simulates v Eq (memo x infer) (Check.memo x infer') := by
  intro s type s' hexec hs
  have htype : ∀ t : CheckState Unit, Fair v s → s.code.Lags t.code →
      (t.code.node x).type = (s.code.node x).type := fun t hfair ht =>
    ht.type_eq fun hmute => hx (hfair.code.callsMute hmute)
  rcases exec_memo_eq_ok hexec with ⟨hknown, rfl, rfl⟩ | ⟨hunknown, u, hinfer, rfl⟩
  · exact ⟨.refl _, fun hfair => ⟨_, rfl, fun t ht =>
      .memo_of_isKnown (htype t hfair ht) hknown ht⟩⟩
  · obtain ⟨hbefore, hfollow⟩ := h s type u hinfer hs
    refine ⟨hbefore.trans before_record, fun hfair => ?_⟩
    have hu : Fair v u := hfair.before before_record
    obtain ⟨_, rfl, hattains⟩ := hfollow hu
    refine ⟨type, rfl, fun t ht => .memo ?_ (hattains t ht) fun c hc => ?_⟩
    · rwa [htype t (hu.before hbefore) ht]
    · split
      · exact hc.setType x type
      · exact hc

end Simulates

namespace Trails

variable {V : α → α → Prop} {a : Check (List Comparison) α} {b : Check Unit α}

/-- Where the answer does not depend on the unit, it is the same in all units. -/
theorem simulates (h : Trails v Eq a b) : Simulates v Eq a b := fun s x s' hexec hs =>
  (h s x s' hexec hs).imp_right fun hfollow hfair => ⟨x, rfl, fun t ht => by
    obtain ⟨_, rfl, hattains⟩ := hfollow hfair t ht
    exact hattains⟩

/-- What depends on the unit may be used for an answer that does not. -/
theorem bindEq {f : α → Check (List Comparison) β} {g : α → Check Unit β} (hV : ∀ x, V x x)
    (h : Trails v V a b) (hf : ∀ x y, V x y → Simulates v Eq (f x) (g y)) :
    Simulates v Eq (a >>= f) (b >>= g) := by
  refine simulates fun s z s' hexec hs => ?_
  obtain ⟨x, u, ha, hfx, hu, hsu, hus'⟩ := Simulates.before_of_bind hV h hf hexec hs
  refine ⟨hsu.trans hus', fun hfair t ht => ⟨z, rfl, ?_⟩⟩
  obtain ⟨y, hxy, hattains⟩ := (h s x u ha hs).2 (hfair.before hus') t ht
  obtain ⟨_, rfl, hrest⟩ := (hf x y hxy u z s' hfx hu).2 hfair
  exact hattains.bind fun t' ht' => hrest t' ht'

theorem discard (hV : ∀ x, V x x) (h : Trails v V a b) :
    Simulates v Eq (discard a) (discard b) := by
  rw [discard_eq_bind, discard_eq_bind]
  exact h.bindEq hV fun _ _ _ => .pure rfl

end Trails

/-! ### Completing descriptors -/

section Complete

variable {s s' : CheckState (List Comparison)} {id : ScopeId} {name : String} {type : Ty}
  {d : Descriptor} {t : CheckState Unit}

theorem before_complete (h : exec (complete id name type) s = (.ok (), s')) : Before s s' := by
  rcases exec_complete_eq_ok h with ⟨-, rfl⟩ | ⟨hknown, scopes, hscopes, rfl⟩
  · exact .refl _
  · exact .of_code (.withScopes (ScopeTree.refinesTo_refine hscopes hknown))

/-- A descriptor is completed in both units. -/
theorem attains_complete (h : exec (complete id name type) s = (.ok (), s'))
    (ht : s.code.Lags t.code)
    (hsafe : ∀ home d, s.code.scopes.declaring? id name = some home →
      s.code.scopes.find? id name = some d → s.code.MuteName home name → d.type = .uint64 →
      type.isKnown → type = .uint64) :
    Attains (complete id name type) t () s'.code := by
  unfold Attains
  rcases exec_complete_eq_ok h with ⟨hunknown, rfl⟩ | ⟨hknown, scopes, hscopes, rfl⟩
  · unfold complete
    rw [if_neg hunknown]
    exact .inr ⟨t, rfl, ht⟩
  · unfold complete
    rw [if_pos hknown, exec_changeScopes]
    obtain ⟨scopes', hscopes', hlags⟩ := ht.refine hscopes hknown
      fun home d hhome hd hmute hword => hsafe home d hhome hd hmute hword hknown
    rw [hscopes']
    exact .inr ⟨_, rfl, hlags⟩

/-- What does not clash with a descriptor completes it in both units. -/
theorem attains_complete_of_not_clashes (h : exec (complete id name type) s = (.ok (), s'))
    (ht : s.code.Lags t.code) (hd : s.code.scopes.find? id name = some d)
    (hclash : ¬d.type.clashes type) : Attains (complete id name type) t () s'.code := by
  refine attains_complete h ht fun home e _ he _ hword hknown => ?_
  cases hd.symm.trans he
  rw [hword] at hclash
  cases type <;> simp_all [Ty.clashes, Ty.isKnown]

end Complete

end

end ContractLang
