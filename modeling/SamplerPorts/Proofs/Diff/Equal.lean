import SamplerPorts.Report

/-!
The difference of a text from itself. The search keeps all lines, there is nothing to slide, and
nothing is counted (`summary_self`).
-/

namespace SamplerPorts.Diff

theorem commonHead_self (ls : List Text) : commonHead ls ls = ls := by
  induction ls with
  | nil => rfl
  | cons l ls ih => simp [commonHead, ih]

theorem between_self (ls : List Text) : between ls ls = keepRun ls := by
  have hframe : Frame.of ls ls = ⟨ls, [], [], []⟩ := by
    simp [Frame.of, commonHead_self]
  rw [between, hframe]
  simp [keepRun]

theorem slideFrom_of_not_chosen {chosen : Edit → Bool} (steps : Nat) (done rest : List Edit)
    (h : ∀ e ∈ rest, chosen e = false) :
    slideFrom chosen steps done rest = done.reverse ++ rest := by
  induction rest generalizing steps done with
  | nil => cases steps <;> simp [slideFrom]
  | cons e rest ih =>
      have he := h e (List.mem_cons_self ..)
      cases steps with
      | zero => rfl
      | succ steps =>
          rw [slideFrom, he, if_neg (by decide),
            ih _ _ fun e he => h e (List.mem_cons_of_mem _ he)]
          simp

theorem settle_keepRun (ls : List Text) : Script.settle (keepRun ls) = keepRun ls := by
  have hmem : ∀ e ∈ keepRun ls, e = .keep ls := by
    intro e he
    rw [keepRun] at he
    split at he <;> simp_all
  have hd : slide Edit.isDelete (keepRun ls) = keepRun ls :=
    slideFrom_of_not_chosen _ [] _ fun e he => by rw [hmem e he]; rfl
  have hi : slide Edit.isInsert (keepRun ls) = keepRun ls :=
    slideFrom_of_not_chosen _ [] _ fun e he => by rw [hmem e he]; rfl
  rw [Script.settle, hd, hi]

theorem summary_self (t : Text) : Summary.of t t = .zero := by
  have hdel : ((changes t t).flatMap Change.deleted).length = 0 := by
    rw [changes, between_self, settle_keepRun, keepRun]
    split <;> rfl
  simp [Summary.of, hdel, Summary.zero]

end SamplerPorts.Diff

namespace SamplerPorts.Report

theorem changes_foldl_add (cs : List PlanChange) (r : Report) :
    (cs.foldl add r).changes = r.changes ++ cs := by
  induction cs generalizing r with
  | nil => simp
  | cons c cs ih => simp [ih, add]

theorem changes_ofChanges (cs : List PlanChange) : (ofChanges cs).changes = cs :=
  changes_foldl_add cs empty

theorem summary_foldl_add {cs : List PlanChange} (h : ∀ c ∈ cs, c.after = c.before) (r : Report) :
    (cs.foldl add r).summary = r.summary := by
  induction cs generalizing r with
  | nil => rfl
  | cons c cs ih =>
      rw [List.foldl_cons, ih fun c hc => h c (List.mem_cons_of_mem _ hc)]
      rw [add, PlanChange.summary, h c (List.mem_cons_self ..), Diff.summary_self]
      rfl

/-- Changes that change nothing count nothing. -/
theorem counts_of_unchanged {cs : List PlanChange} (h : ∀ c ∈ cs, c.after = c.before) :
    (ofChanges cs).countModified = 0 ∧ (ofChanges cs).summary = .zero := by
  refine ⟨?_, summary_foldl_add h empty⟩
  rw [countModified, changes_ofChanges, List.countP_eq_zero]
  intro c hc
  simp [PlanChange.differs, h c hc]

end SamplerPorts.Report
