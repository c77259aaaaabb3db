import Mathlib.Data.Nat.Find
import SamplerPorts.Diff.Summary
import SamplerPorts.Proofs.Diff.Meeting

/-!
The difference of two texts is a shortest one. Where two sequences have nothing in common at their
ends they are at least two edits apart, so the searches meet at a point where they can be cut, and
the script that is put together from the two parts keeps a longest common subsequence
(`isLongest_between`). Sliding moves no deletions past lines that are kept, so what is counted in
the end are the lines that are not in this subsequence (`exists_kept`).
-/

namespace SamplerPorts.Diff
variable {a b : List Text} {n : Nat}

/-- A common subsequence of the greatest length. -/
structure IsLongest (s a b : List Text) : Prop where
  common : IsCommon s a b
  le : ∀ t, IsCommon t a b → t.length ≤ s.length

theorem commonHead_append (c a b : List Text) :
    commonHead (c ++ a) (c ++ b) = c ++ commonHead a b := by
  induction c with
  | nil => rfl
  | cons l c ih => simp [commonHead, ih]

theorem commonTail_append (a b c : List Text) :
    commonTail (a ++ c) (b ++ c) = commonTail a b ++ c := by
  simp [commonTail, commonHead_append]

theorem commonHead_eq_nil_of_prefix {a' b' : List Text} (ha : a' <+: a) (hb : b' <+: b)
    (h : commonHead a b = []) : commonHead a' b' = [] := by
  obtain ⟨u, rfl⟩ := ha
  obtain ⟨v, rfl⟩ := hb
  cases a' with
  | nil => rfl
  | cons l a' =>
      cases b' with
      | nil => rfl
      | cons k b' =>
          by_cases hlk : l = k
          · simp [commonHead, hlk] at h
          · simp [commonHead, hlk]

namespace Frame

theorem commonHead_old_new (old new : List Text) :
    commonHead (of old new).old (of old new).new = [] := by
  have hhead : (of old new).head = commonHead old new := rfl
  have happend := hhead.trans (congrArg₂ commonHead (old_eq old new) (new_eq old new)).symm
  rw [List.append_assoc, List.append_assoc, commonHead_append, List.self_eq_append_right] at happend
  exact commonHead_eq_nil_of_prefix (List.prefix_append ..) (List.prefix_append ..) happend

theorem commonTail_old_new (old new : List Text) :
    commonTail (of old new).old (of old new).new = [] := by
  have htail : (of old new).tail = commonTail (old.drop (of old new).head.length)
    (new.drop (of old new).head.length) := rfl
  have hold : old.drop (of old new).head.length = (of old new).old ++ (of old new).tail := by
    have hdrop := congrArg (List.drop (of old new).head.length) (old_eq old new)
    rwa [List.append_assoc, List.drop_left, eq_comm] at hdrop
  have hnew : new.drop (of old new).head.length = (of old new).new ++ (of old new).tail := by
    have hdrop := congrArg (List.drop (of old new).head.length) (new_eq old new)
    rwa [List.append_assoc, List.drop_left, eq_comm] at hdrop
  rwa [hold, hnew, commonTail_append, List.self_eq_append_left] at htail

end Frame

/-- Both sequences begin with the same line, or both end with the same one. -/
inductive SharesEnd : List Text → List Text → Prop
  | head (l : Text) (as bs : List Text) : SharesEnd (l :: as) (l :: bs)
  | last (l : Text) (as bs : List Text) : SharesEnd (as ++ [l]) (bs ++ [l])

theorem SharesEnd.symm (h : SharesEnd a b) : SharesEnd b a := by
  cases h with
  | head l as bs => exact .head l bs as
  | last l as bs => exact .last l bs as

theorem not_sharesEnd (hhead : commonHead a b = []) (htail : commonTail a b = []) :
    ¬ SharesEnd a b := by
  rintro (⟨l, as, bs⟩ | ⟨l, as, bs⟩)
  · simp [commonHead] at hhead
  · simp [commonTail, commonHead] at htail

theorem sharesEnd_of_sublist (h : a.Sublist b) (hlength : b.length ≤ a.length + 1) (ha : a ≠ []) :
    SharesEnd a b := by
  cases h with
  | slnil => exact absurd rfl ha
  | cons k h =>
      obtain rfl := h.eq_of_length_le (by simpa using hlength)
      obtain ⟨as, l, rfl⟩ := List.eq_nil_or_concat a |>.resolve_left ha
      rw [List.concat_eq_append]
      exact .last l as (k :: as)
  | cons_cons l h => exact .head l _ _

theorem two_le_of_within (ha : a ≠ []) (hb : b ≠ []) (hhead : commonHead a b = [])
    (htail : commonTail a b = []) (h : Within n a b) : 2 ≤ n := by
  obtain ⟨s, hs, hn⟩ := h
  have hle := hs.length_le
  refine Nat.le_of_not_lt fun hlt => not_sharesEnd hhead htail ?_
  -- with one edit one of the sequences is a subsequence of the other one
  obtain hsa | hsb : s.length = a.length ∨ s.length = b.length := by omega
  · obtain rfl := hs.left.eq_of_length hsa
    exact sharesEnd_of_sublist hs.right (by omega) ha
  · obtain rfl := hs.right.eq_of_length hsb
    exact (sharesEnd_of_sublist hs.left (by omega) hb).symm

theorem exists_isDistance (a b : List Text) : ∃ n, IsDistance n a b := by
  classical
  have h : ∃ n, Within n a b := ⟨_, within_of_le (Nat.le_refl _)⟩
  exact ⟨Nat.find h, Nat.find_spec h, fun m hm => Nat.find_min' h hm⟩

theorem exists_cut (ha : a ≠ []) (hb : b ≠ []) (hhead : commonHead a b = [])
    (htail : commonTail a b = []) :
    ∃ n x y, IsDistance n a b ∧ cut? a b = some (x, y) ∧ IsCut n a b x y := by
  obtain ⟨n, hdist⟩ := exists_isDistance a b
  have htwo := two_le_of_within ha hb hhead htail hdist.within
  have hle := hdist.le _ (within_of_le (Nat.le_refl _))
  have hrounds : n + 1 < 2 * (0 + ((a.length + b.length + 1) / 2 + 1)) := by omega
  obtain ⟨x, y, hcut, his⟩ :=
    exists_meet hdist htwo (.first a b #[]) (.first a.reverse b.reverse #[]) (by omega) hrounds
  exact ⟨n, x, y, hdist, hcut, his⟩

namespace Edit

def kept : Edit → List Text
  | keep ls => ls
  | delete _ | insert _ => []

def deleted : Edit → List Text
  | delete ls => ls
  | keep _ | insert _ => []

end Edit

namespace Script

def kept (s : Script) : List Text := s.flatMap Edit.kept

def deleted (s : Script) : List Text := s.flatMap Edit.deleted

@[simp] theorem kept_nil : kept [] = [] := rfl
@[simp] theorem deleted_nil : deleted [] = [] := rfl

@[simp] theorem kept_cons (e : Edit) (s : Script) : kept (e :: s) = e.kept ++ kept s := rfl
@[simp] theorem deleted_cons (e : Edit) (s : Script) : deleted (e :: s) = e.deleted ++ deleted s :=
  rfl

@[simp] theorem kept_append (s t : Script) : kept (s ++ t) = kept s ++ kept t := by simp [kept]
@[simp] theorem deleted_append (s t : Script) : deleted (s ++ t) = deleted s ++ deleted t := by
  simp [deleted]

@[simp] theorem kept_keepRun (ls : List Text) : kept (keepRun ls) = ls := by
  unfold keepRun
  split <;> simp_all [Edit.kept]

theorem isCommon_kept (s : Script) : IsCommon s.kept s.old s.new := by
  induction s with
  | nil => exact .nil [] []
  | cons e s ih =>
      refine IsCommon.append ?_ ih
      cases e with
      | keep ls => exact ⟨.refl ls, .refl ls⟩
      | delete | insert => exact .nil _ _

theorem length_old (s : Script) : s.old.length = s.kept.length + s.deleted.length := by
  induction s with
  | nil => rfl
  | cons e s ih =>
      rw [old_cons, kept_cons, deleted_cons, List.length_append, List.length_append,
        List.length_append, ih]
      cases e <;> simp only [Edit.old, Edit.kept, Edit.deleted, List.length_nil] <;> omega

end Script

/-- All edits of the script between two sequences are needed. -/
theorem le_kept_between (old new : List Text) :
    ∀ n, Within n old new → old.length + new.length ≤ 2 * (between old new).kept.length + n := by
  fun_induction between old new with
  | case1 old new f ihl ihr =>
      intro n h
      have hold : f.head ++ f.old ++ f.tail = old := Frame.old_eq old new
      have hnew : f.head ++ f.new ++ f.tail = new := Frame.new_eq old new
      have hold' := congrArg List.length hold
      have hnew' := congrArg List.length hnew
      rw [← hold, ← hnew] at h
      have hmiddle : Within n f.old f.new := h.of_append_right.of_append_left
      simp only [List.length_append] at hold' hnew'
      have hframe (middle : Script)
          (hkept : f.old.length + f.new.length ≤ 2 * middle.kept.length + n) :
          old.length + new.length ≤
            2 * (keepRun f.head ++ middle ++ keepRun f.tail).kept.length + n := by
        simp only [Script.kept_append, Script.kept_keepRun, List.length_append]
        omega
      refine hframe _ ?_
      split
      · next hnil => simp [hnil.1, hnil.2]
      · split
        · next hnil =>
          rw [hnil] at hmiddle ⊢
          simpa using Nat.le_trans (length_le_of_within_nil hmiddle) (Nat.le_add_left ..)
        · next hb =>
          split
          · next hnil =>
            rw [hnil] at hmiddle ⊢
            simpa using Nat.le_trans (length_le_of_nil_within hmiddle) (Nat.le_add_left ..)
          · next ha =>
            obtain ⟨m, x, y, hdist, hcut, his⟩ := exists_cut ha hb
              (Frame.commonHead_old_new old new) (Frame.commonTail_old_new old new)
            have hcond : 0 < x + y ∧ x ≤ f.old.length ∧ y ≤ f.new.length ∧
                x + y < f.old.length + f.new.length := ⟨his.pos, his.left, his.right, his.lt⟩
            obtain ⟨d, e, rfl, hd, he⟩ := his.within
            have hl := ihl x y hcond d hd
            have hr := ihr x y hcond e he
            have := hdist.le n hmiddle
            simp only [List.length_take, List.length_drop] at hl hr
            rw [hcut]
            simp only [hcond, and_self, if_true, Script.kept_append, List.length_append]
            omega

/-- The script between two sequences keeps as many lines as any common subsequence has. -/
theorem isLongest_between (old new : List Text) : IsLongest (between old new).kept old new where
  common := by
    have := (between old new).isCommon_kept
    rwa [old_between, new_between] at this
  le t ht := by
    have := le_kept_between old new (old.length + new.length - 2 * t.length) ⟨t, ht, by omega⟩
    have := ht.length_le
    omega

@[simp] theorem deleted_keepRun (ls : List Text) : Script.deleted (keepRun ls) = [] := by
  unfold keepRun
  split <;> rfl

namespace Focus

@[simp] theorem deleted_keepAfter (ls : List Text) (es : List Edit) :
    Script.deleted (keepAfter ls es) = Script.deleted es := by
  unfold keepAfter
  split <;> simp [Edit.deleted]

@[simp] theorem deleted_keepBefore (ls : List Text) (es : List Edit) :
    Script.deleted (keepBefore ls es).reverse = Script.deleted es.reverse := by
  unfold keepBefore
  split <;> simp [Edit.deleted]

theorem deleted_slideUp (before : List Edit) (edit : Edit) (after : List Edit)
    (h : edit.isKeep = false) :
    (slideUp before edit after).script.deleted =
      Script.deleted (before.reverse ++ edit :: after) := by
  fun_induction slideUp before edit after with
  | case1 edit after => simp [script]
  | case2 edit after ks before hs => simp [dif_pos hs, script]
  | case3 edit after ks before hs ih =>
      rw [dif_neg hs, ih rfl]
      cases edit with
      | keep ls => cases h
      | delete ls => simp [Edit.new] at hs
      | insert ls => simp [Edit.deleted]
  | case4 after ds before es ih => simp [ih h, Edit.deleted]
  | case5 after is before es ih => simp [ih h, Edit.deleted]
  | case6 edit after e before h1 h2 h3 ih =>
      rw [ih h]
      cases e <;> cases edit <;> simp_all [Edit.deleted, Edit.isKeep]

theorem deleted_slideDown (before : List Edit) (edit : Edit) (after : List Edit)
    (h : edit.isKeep = false) :
    (slideDown before edit after).script.deleted =
      Script.deleted (before.reverse ++ edit :: after) := by
  fun_induction slideDown before edit after with
  | case1 before edit => simp [script]
  | case2 before edit ks after hs => simp [dif_pos hs, script]
  | case3 before edit ks after hs ih =>
      rw [dif_neg hs, ih rfl]
      cases edit with
      | keep ls => cases h
      | delete ls => simp [Edit.new] at hs
      | insert ls => simp [Edit.deleted]
  | case4 before ds after es ih => simp [ih h, Edit.deleted]
  | case5 before is after es ih => simp [ih h, Edit.deleted]
  | case6 before edit e after h1 h2 h3 ih =>
      rw [ih h]
      cases e <;> cases edit <;> simp_all [Edit.deleted, Edit.isKeep]

end Focus

theorem deleted_slideFrom {chosen : Edit → Bool} (h : ∀ e, chosen e = true → e.isKeep = false)
    (steps : Nat) (done rest : List Edit) :
    (slideFrom chosen steps done rest).deleted = Script.deleted (done.reverse ++ rest) := by
  fun_induction slideFrom chosen steps done rest with
  | case1 done rest => rfl
  | case2 steps done => simp
  | case3 steps done e rest he up f ih =>
      have hf : f.script.deleted = up.script.deleted :=
        Focus.deleted_slideDown _ _ _ (Focus.isKeep_slideUp done e rest (h e he))
      have hu : up.script.deleted = _ := Focus.deleted_slideUp done e rest (h e he)
      simpa [Focus.script, ← hu] using ih.trans (by simpa [Focus.script] using hf)
  | case4 steps done e rest he ih => simpa using ih

theorem deleted_settle (s : Script) : s.settle.deleted = s.deleted := by
  rw [Script.settle, slide, deleted_slideFrom, List.reverse_nil, List.nil_append, slide,
    deleted_slideFrom, List.reverse_nil, List.nil_append] <;> rintro (_ | _ | _) <;>
    simp [Edit.isDelete, Edit.isInsert, Edit.isKeep]

namespace Change

theorem deleted_addEdit (e : Edit) (cs : List Change) :
    (addEdit e cs).flatMap deleted = e.deleted ++ cs.flatMap deleted := by
  fun_cases addEdit e cs <;> simp [deleted, Edit.deleted]

theorem deleted_ofScript (s : Script) : (ofScript s).flatMap deleted = s.deleted := by
  induction s with
  | nil => rfl
  | cons e s ih =>
      rw [Script.deleted_cons, ← ih]
      exact deleted_addEdit e (ofScript s)

end Change

/-- The summary counts the lines that are not in a longest common subsequence. -/
theorem exists_kept (old new : Text) :
    ∃ kept, IsLongest kept (lines old) (lines new) ∧
      kept.length + (Summary.of old new).lines = (lines old).length := by
  refine ⟨_, isLongest_between (lines old) (lines new), ?_⟩
  have hlength := (between (lines old) (lines new)).length_old
  rw [old_between] at hlength
  rw [hlength]
  simp only [Summary.of, changes, Change.deleted_ofScript, deleted_settle]

end SamplerPorts.Diff
