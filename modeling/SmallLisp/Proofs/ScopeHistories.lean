import SmallLisp.Scope
import Mathlib.Data.List.Induction
import Mathlib.Data.List.Infix

/-! # Scopes and their histories

A history is any sequence of definitions, frames opened and frames left. What a name means in a scope is read off its
history: a definition counts as long as the frame that it was made in has not been left, the innermost frame with a
definition of the name decides, and there the latest one.
-/
namespace SmallLisp

inductive ScopeStep (α : Type) where
  | define (name : String) (value : α)
  | push
  | pop

namespace ScopeStep
variable {α : Type}

def isPush : ScopeStep α → Bool
  | push => true
  | define .. | pop => false

def isPop : ScopeStep α → Bool
  | pop => true
  | define .. | push => false

/-- Where the frame that is the `n`th one outward after the step was before it; a new frame was nowhere. -/
def origin? : ScopeStep α → Nat → Option Nat
  | define .., n => some n
  | push, 0 => none
  | push, n + 1 => some n
  | pop, n => some (n + 1)

end ScopeStep

abbrev ScopeHistory (α : Type) := List (ScopeStep α)

namespace ScopeHistory
variable {α : Type}

def opened (h : ScopeHistory α) : Nat := h.countP ScopeStep.isPush

def closed (h : ScopeHistory α) : Nat := h.countP ScopeStep.isPop

/-- The frame that is the innermost one at the start is never left. -/
def Stays (h : ScopeHistory α) : Prop := ∀ part : ScopeHistory α, part <+: h → part.closed ≤ part.opened

instance (h : ScopeHistory α) : Decidable h.Stays :=
  decidable_of_iff (∀ part ∈ h.inits, closed part ≤ opened part) (by simp [Stays, List.mem_inits])

/-- The frame that is the innermost one at the start is still there at the end, the `n`th one outward. -/
def Keeps (h : ScopeHistory α) (n : Nat) : Prop := h.Stays ∧ h.opened = h.closed + n

instance (h : ScopeHistory α) (n : Nat) : Decidable (h.Keeps n) := inferInstanceAs (Decidable (_ ∧ _))

def Defines (h : ScopeHistory α) (n : Nat) (name : String) (value : α) : Prop :=
  ∃ before after : ScopeHistory α, h = before ++ .define name value :: after ∧ after.Keeps n

/-- The latest definition of a name in the frame that is the `n`th one outward at the end. -/
def Latest (h : ScopeHistory α) (n : Nat) (name : String) (value : α) : Prop :=
  ∃ before after : ScopeHistory α, h = before ++ .define name value :: after ∧ after.Keeps n ∧
    ∀ other, ¬ after.Defines n name other

/-! ## One more step -/

section Concat
variable (h : ScopeHistory α) (step : ScopeStep α) (n : Nat) (name : String) (value : α)

theorem opened_concat : opened (h ++ [step]) = h.opened + if step.isPush then 1 else 0 := by
  simp [opened, List.countP_singleton]

theorem closed_concat : closed (h ++ [step]) = h.closed + if step.isPop then 1 else 0 := by
  simp [closed, List.countP_singleton]

theorem keeps_nil : Keeps ([] : ScopeHistory α) n ↔ n = 0 := by
  have hstays : Stays ([] : ScopeHistory α) := by simp [Stays, closed]
  simp [Keeps, hstays, opened, closed, eq_comm]

theorem stays_concat : Stays (h ++ [step]) ↔ h.Stays ∧ closed (h ++ [step]) ≤ opened (h ++ [step]) := by
  simp only [Stays, List.prefix_concat_iff, or_imp, forall_and, forall_eq, and_comm]

/-- A frame that is kept was kept before the step, and was where the step found it. -/
theorem keeps_concat : Keeps (h ++ [step]) n ↔ ∃ m ∈ step.origin? n, h.Keeps m := by
  have hprefix : h.Stays → h.closed ≤ h.opened := fun hs => hs h List.prefix_rfl
  rw [Keeps, stays_concat, opened_concat, closed_concat]
  cases step with
  | define x v => simp [ScopeStep.isPush, ScopeStep.isPop, ScopeStep.origin?, Keeps]; grind
  | push =>
    cases n <;> simp [ScopeStep.isPush, ScopeStep.isPop, ScopeStep.origin?, Keeps] <;> grind
  | pop => simp [ScopeStep.isPush, ScopeStep.isPop, ScopeStep.origin?, Keeps]; grind

/-- A part that starts with a definition is the last step alone or ends with it. -/
theorem concat_eq_append_cons {before after : ScopeHistory α} : h ++ [step] = before ++ .define name value :: after ↔
    (after = [] ∧ h = before ∧ step = .define name value) ∨
    ∃ rest, after = rest ++ [step] ∧ h = before ++ .define name value :: rest := by
  rcases after.eq_nil_or_concat with rfl | ⟨rest, last, rfl⟩
  · simp
  · rw [List.concat_eq_append, ← List.cons_append, ← List.append_assoc, List.append_singleton_inj]
    constructor
    · rintro ⟨hh, rfl⟩
      exact .inr ⟨rest, rfl, hh⟩
    · rintro (⟨hnil, -⟩ | ⟨rest', hrest, hh⟩)
      · simp at hnil
      · obtain ⟨rfl, rfl⟩ := List.append_singleton_inj.mp hrest
        exact ⟨hh, rfl⟩

theorem defines_concat : Defines (h ++ [step]) n name value ↔
    (n = 0 ∧ step = .define name value) ∨ ∃ m ∈ step.origin? n, h.Defines m name value := by
  simp only [Defines, concat_eq_append_cons]
  constructor
  · rintro ⟨before, after, ⟨rfl, -, hstep⟩ | ⟨rest, rfl, hh⟩, hkeeps⟩
    · exact .inl ⟨(keeps_nil n).mp hkeeps, hstep⟩
    · obtain ⟨m, hm, hrest⟩ := (keeps_concat rest step n).mp hkeeps
      exact .inr ⟨m, hm, before, rest, hh, hrest⟩
  · rintro (⟨hn, hstep⟩ | ⟨m, hm, before, rest, hh, hrest⟩)
    · exact ⟨h, [], .inl ⟨rfl, rfl, hstep⟩, (keeps_nil n).mpr hn⟩
    · exact ⟨before, rest ++ [step], .inr ⟨rest, rfl, hh⟩, (keeps_concat rest step n).mpr ⟨m, hm, hrest⟩⟩

/-- A step that does not define the name in the frame leaves the latest definition there as it was. -/
theorem latest_concat : Latest (h ++ [step]) n name value ↔
    (n = 0 ∧ step = .define name value) ∨
    (∀ other, ¬ (n = 0 ∧ step = .define name other)) ∧ ∃ m ∈ step.origin? n, h.Latest m name value := by
  simp only [Latest, concat_eq_append_cons]
  constructor
  · rintro ⟨before, after, ⟨rfl, -, hstep⟩ | ⟨rest, rfl, hh⟩, hkeeps, hlast⟩
    · exact .inl ⟨(keeps_nil n).mp hkeeps, hstep⟩
    · obtain ⟨m, hm, hrest⟩ := (keeps_concat rest step n).mp hkeeps
      simp only [defines_concat, not_or] at hlast
      exact .inr ⟨fun other => (hlast other).1, m, hm, before, rest, hh, hrest,
        fun other hd => (hlast other).2 ⟨m, hm, hd⟩⟩
  · rintro (⟨hn, hstep⟩ | ⟨hother, m, hm, before, rest, hh, hrest, hlast⟩)
    · refine ⟨h, [], .inl ⟨rfl, rfl, hstep⟩, (keeps_nil n).mpr hn, ?_⟩
      rintro other ⟨_, _, hnil, -⟩
      simp at hnil
    · refine ⟨before, rest ++ [step], .inr ⟨rest, rfl, hh⟩,
        (keeps_concat rest step n).mpr ⟨m, hm, hrest⟩, ?_⟩
      intro other hd
      rcases (defines_concat rest step n name other).mp hd with hdef | ⟨k, hk, hd⟩
      · exact hother other hdef
      · cases Option.mem_unique hm hk
        exact hlast other hd

end Concat

variable {h : ScopeHistory α}

theorem Latest.defines {n : Nat} {name : String} {value : α} (hl : h.Latest n name value) :
    h.Defines n name value := by
  obtain ⟨before, after, hh, hkeeps, -⟩ := hl
  exact ⟨before, after, hh, hkeeps⟩

/-- Where there is a definition there is a latest one. -/
theorem Defines.exists_latest {n : Nat} {name : String} {value : α} (hd : h.Defines n name value) :
    ∃ latest, h.Latest n name latest := by
  induction h using List.reverseRecOn generalizing n value with
  | nil =>
    obtain ⟨_, _, hnil, -⟩ := hd
    simp at hnil
  | append_singleton h step ih =>
    simp only [latest_concat]
    by_cases hstep : ∃ other, n = 0 ∧ step = .define name other
    · obtain ⟨other, hother⟩ := hstep
      exact ⟨other, .inl hother⟩
    · rw [not_exists] at hstep
      rcases (defines_concat h step n name value).mp hd with hdef | ⟨m, hm, hd⟩
      · exact absurd hdef (hstep value)
      · obtain ⟨latest, hlatest⟩ := ih hd
        exact ⟨latest, .inr ⟨hstep, m, hm, hlatest⟩⟩

end ScopeHistory

/-! ## Scopes -/

namespace Scope
variable {α : Type}

def perform (s : Scope α) : ScopeStep α → Scope α
  | .define name value => s.define name value
  | .push => s.push
  | .pop => s.pop

def after (s : Scope α) (h : ScopeHistory α) : Scope α := h.foldl perform s

def inFrame? (s : Scope α) (n : Nat) (name : String) : Option α :=
  (s.inner :: s.outer)[n]?.bind (·.lookup name)

theorem after_append (s : Scope α) (h g : ScopeHistory α) : s.after (h ++ g) = (s.after h).after g :=
  List.foldl_append

theorem after_concat (s : Scope α) (h : ScopeHistory α) (step : ScopeStep α) :
    s.after (h ++ [step]) = (s.after h).perform step := after_append s h [step]

/-- The first frame with a result decides. -/
theorem findSome?_eq_some_iff_getElem? {β γ : Type} {f : β → Option γ} {xs : List β} {y : γ} :
    xs.findSome? f = some y ↔ ∃ n : Nat, xs[n]?.bind f = some y ∧ ∀ m < n, xs[m]?.bind f = none := by
  induction xs with
  | nil => simp
  | cons x xs ih =>
    rw [List.findSome?_cons]
    cases hx : f x with
    | some z =>
      constructor
      · intro hz
        exact ⟨0, by simpa [hx] using hz, nofun⟩
      · rintro ⟨n, hn, hlt⟩
        cases n with
        | zero => simpa [hx] using hn
        | succ n => simpa [hx] using hlt 0 n.succ_pos
    | none =>
      refine ih.trans ⟨?_, ?_⟩
      · rintro ⟨n, hn, hlt⟩
        refine ⟨n + 1, hn, fun m hm => ?_⟩
        cases m with
        | zero => simpa using hx
        | succ m => exact hlt m (Nat.lt_of_succ_lt_succ hm)
      · rintro ⟨n, hn, hlt⟩
        cases n with
        | zero => simp [hx] at hn
        | succ n => exact ⟨n, hn, fun m hm => hlt (m + 1) (Nat.succ_lt_succ hm)⟩

theorem lookup?_eq_some_iff (s : Scope α) (name : String) (value : α) : s.lookup? name = some value ↔
    ∃ n, s.inFrame? n name = some value ∧ ∀ m < n, s.inFrame? m name = none :=
  findSome?_eq_some_iff_getElem?

theorem lookup?_eq_none_iff (s : Scope α) (name : String) :
    s.lookup? name = none ↔ ∀ n, s.inFrame? n name = none := by
  rw [lookup?, List.findSome?_eq_none_iff]
  simp only [inFrame?, Option.bind_eq_none_iff]
  constructor
  · exact fun h n frame hframe => h frame (List.mem_of_getElem? hframe)
  · intro h frame hframe
    obtain ⟨n, hn⟩ := List.getElem?_of_mem hframe
    exact h n frame hn

/-- What a frame holds after a step that does not leave the last one. -/
theorem inFrame?_perform {s : Scope α} {step : ScopeStep α} (hpop : step.isPop → s.outer ≠ []) (n : Nat)
    (name : String) (value : α) : (s.perform step).inFrame? n name = some value ↔
      (n = 0 ∧ step = .define name value) ∨
      (∀ other, ¬ (n = 0 ∧ step = .define name other)) ∧
        ∃ m ∈ step.origin? n, s.inFrame? m name = some value := by
  cases step with
  | define x v =>
    cases n with
    | zero => by_cases hx : x = name <;> simp [perform, define, inFrame?, lookup_cons_eq_ite, ScopeStep.origin?, hx]
    | succ n => simp [perform, define, inFrame?, ScopeStep.origin?]
  | push => cases n <;> simp [perform, push, inFrame?, ScopeStep.origin?]
  | pop =>
    obtain ⟨frame, rest, hrest⟩ := List.exists_cons_of_ne_nil (hpop rfl)
    simp [perform, pop, hrest, inFrame?, ScopeStep.origin?]

/-- There is one frame more than have been opened and not left. -/
theorem depth_after {h : ScopeHistory α} (hroot : h.Stays) : (empty.after h).depth + h.closed = 1 + h.opened := by
  induction h using List.reverseRecOn with
  | nil => rfl
  | append_singleton h step ih =>
    obtain ⟨hstays, hle⟩ := (ScopeHistory.stays_concat h step).mp hroot
    have hdepth := ih hstays
    rw [ScopeHistory.closed_concat, ScopeHistory.opened_concat] at hle ⊢
    rw [after_concat]
    cases step with
    | define x v => exact hdepth
    | push =>
      simp only [perform, depth_push, ScopeStep.isPush, ScopeStep.isPop, if_true, Bool.false_eq_true, if_false]
      omega
    | pop =>
      simp only [ScopeStep.isPush, ScopeStep.isPop, if_true] at hle ⊢
      cases houter : (empty.after h).outer with
      | nil =>
        rw [depth, houter] at hdepth
        simp at hle hdepth
        omega
      | cons frame rest =>
        rw [depth, houter] at hdepth
        simp [perform, pop, houter, depth] at hdepth ⊢
        omega

/-- The frames hold the latest definitions of the history that were made in them. -/
theorem inFrame?_after {h : ScopeHistory α} (hroot : h.Stays) (n : Nat) (name : String) (value : α) :
    (empty.after h).inFrame? n name = some value ↔ h.Latest n name value := by
  induction h using List.reverseRecOn generalizing n value with
  | nil =>
    have hnone : (empty : Scope α).inFrame? n name = none := by cases n <;> rfl
    rw [after, List.foldl_nil, hnone]
    refine ⟨nofun, ?_⟩
    rintro ⟨_, _, hnil, -⟩
    simp at hnil
  | append_singleton h step ih =>
    have hstays := ((ScopeHistory.stays_concat h step).mp hroot).1
    have hpop : step.isPop → (empty.after h).outer ≠ [] := by
      intro hpop houter
      have hle := ((ScopeHistory.stays_concat h step).mp hroot).2
      have hdepth := depth_after hstays
      rw [ScopeHistory.closed_concat, ScopeHistory.opened_concat] at hle
      cases step <;> simp [ScopeStep.isPush, ScopeStep.isPop, depth, houter] at hpop hle hdepth
      omega
    rw [after_concat, inFrame?_perform hpop, ScopeHistory.latest_concat]
    simp only [ih hstays]

theorem inFrame?_after_eq_none {h : ScopeHistory α} (hroot : h.Stays) (n : Nat) (name : String) :
    (empty.after h).inFrame? n name = none ↔ ∀ value, ¬ h.Defines n name value := by
  rw [Option.eq_none_iff_forall_ne_some]
  constructor
  · intro hnone value hd
    obtain ⟨latest, hlatest⟩ := hd.exists_latest
    exact hnone latest ((inFrame?_after hroot n name latest).mpr hlatest)
  · intro hnone value hvalue
    exact hnone value ((inFrame?_after hroot n name value).mp hvalue).defines

/-- The frames around one that is kept stay as they are. -/
theorem outer_after (s : Scope α) {h : ScopeHistory α} {n : Nat} (hkeeps : h.Keeps n) :
    (s.after h).outer.drop n = s.outer := by
  induction h using List.reverseRecOn generalizing n with
  | nil =>
    obtain rfl := (ScopeHistory.keeps_nil n).mp hkeeps
    rfl
  | append_singleton h step ih =>
    obtain ⟨m, hm, hrest⟩ := (ScopeHistory.keeps_concat h step n).mp hkeeps
    rw [after_concat, ← ih hrest]
    cases step with
    | define x v =>
      cases hm
      rfl
    | push =>
      cases n with
      | zero => cases hm
      | succ n =>
        cases hm
        rfl
    | pop =>
      cases hm
      cases houter : (s.after h).outer <;> simp [perform, pop, houter]

/-- Leaving the frame that a balanced history was run in gives back the scope before it. -/
theorem after_balanced (s : Scope α) {body : ScopeHistory α} (hbody : body.Keeps 0) :
    s.after (.push :: body ++ [.pop]) = s := by
  have houter : (s.push.after body).outer = s.inner :: s.outer := s.push.outer_after hbody
  rw [after_concat]
  change (s.push.after body).pop = s
  rw [pop, houter]

/-- After a history that never leaves the root, a name means what its latest definition says in the innermost frame
that is still there and has one, and nothing where no such frame has one. A frame that is opened and left again makes
no difference to any name, whatever is done in between. -/
theorem lookup?_after {h : ScopeHistory α} (hroot : h.Stays) :
    (∀ name value, (empty.after h).lookup? name = some value ↔
      ∃ n, h.Latest n name value ∧ ∀ m < n, ∀ other, ¬ h.Defines m name other) ∧
    (∀ name, (empty.after h).lookup? name = none ↔ ∀ n value, ¬ h.Defines n name value) ∧
    (∀ name, (empty.after h).isLocal name ↔ ∃ value, h.Defines 0 name value) ∧
    (empty.after h).depth + h.closed = 1 + h.opened ∧
    ∀ body : ScopeHistory α, body.Keeps 0 → ∀ name,
      (empty.after (h ++ (.push :: body ++ [.pop]))).lookup? name = (empty.after h).lookup? name := by
  refine ⟨fun name value => ?_, fun name => ?_, fun name => ?_, depth_after hroot, fun body hbody name => ?_⟩
  · simp only [lookup?_eq_some_iff, inFrame?_after hroot, inFrame?_after_eq_none hroot]
  · simp only [lookup?_eq_none_iff, inFrame?_after_eq_none hroot]
  · have hnone := not_congr (inFrame?_after_eq_none hroot 0 name)
    simp only [not_forall, not_not] at hnone
    rw [← hnone]
    exact Option.isSome_iff_ne_none
  · rw [after_append, after_balanced _ hbody]

/-- A name is defined in the root, twice in a frame, and once more in a frame that has been left. -/
def shadowingHistory : ScopeHistory Nat :=
  [.define "x" 1, .push, .define "x" 2, .define "x" 3, .push, .define "x" 4, .pop, .push, .define "y" 5]

theorem lookup?_after_shadowingHistory : shadowingHistory.Stays ∧
    ((empty.after shadowingHistory).lookup? "x" = some 3 ↔
      ∃ n, shadowingHistory.Latest n "x" 3 ∧ ∀ m < n, ∀ other, ¬ shadowingHistory.Defines m "x" other) ∧
    shadowingHistory.Latest 1 "x" 3 ∧ (empty.after shadowingHistory).lookup? "x" = some 3 ∧
    (empty.after (shadowingHistory ++ [.push, .define "x" 6, .pop])).lookup? "x" = some 3 := by
  have hroot : shadowingHistory.Stays := by decide
  have hspec := lookup?_after hroot
  have hvalue : (empty.after shadowingHistory).lookup? "x" = some 3 := rfl
  have hlatest : shadowingHistory.Latest 1 "x" 3 := (inFrame?_after hroot 1 "x" 3).mp rfl
  exact ⟨hroot, hspec.1 "x" 3, hlatest, hvalue, (hspec.2.2.2.2 [.define "x" 6] (by decide) "x").trans hvalue⟩

end Scope
end SmallLisp
