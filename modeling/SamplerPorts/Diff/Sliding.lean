import SamplerPorts.Diff.Search

/-!
Sliding edits. A run of inserted lines whose last line is also the last line kept before it can be
moved up by that line, and down in the same way, without any change to the two sequences that the
script walks. Every run of edits is moved up as far as it goes and then down as far as it goes: it
swaps with runs of the other kind, takes up runs of its own, and, if it inserts, slides over kept
lines.
-/

namespace SamplerPorts.Diff

/-- A script seen from one of its edits. The steps before it are listed from the nearest one. -/
structure Focus where
  before : List Edit
  edit : Edit
  after : List Edit

def Edit.isKeep : Edit → Bool
  | .keep _ => true
  | _ => false

def Edit.isDelete : Edit → Bool
  | .delete _ => true
  | _ => false

def Edit.isInsert : Edit → Bool
  | .insert _ => true
  | _ => false

namespace Focus

def script (f : Focus) : Script := f.before.reverse ++ f.edit :: f.after

@[simp] theorem reverse_keepRun (ls : List Text) : (keepRun ls).reverse = keepRun ls := by
  unfold keepRun
  split <;> rfl

/-- Keep some lines right behind the edit in focus. -/
def keepAfter (ls : List Text) : List Edit → List Edit
  | .keep ks :: after => .keep (ls ++ ks) :: after
  | after => .keep ls :: after

/-- Keep some lines right before the edit in focus. -/
def keepBefore (ls : List Text) : List Edit → List Edit
  | .keep ks :: before => .keep (ks ++ ls) :: before
  | before => .keep ls :: before

/-- The number of lines and steps in a list of steps. -/
def weight : List Edit → Nat
  | [] => 0
  | e :: es => e.lines.length + 1 + weight es

@[simp] theorem weight_nil : weight [] = 0 := rfl
@[simp] theorem weight_cons (e : Edit) (es : List Edit) :
    weight (e :: es) = e.lines.length + 1 + weight es := rfl

/-- Steps become lighter where a kept run gives up some of its lines. -/
theorem weight_keepRun_lt {ks kept : List Text} {n : Nat} (es : List Edit)
    (h : kept.length + n = ks.length) (pos : 0 < n) :
    weight (keepRun kept ++ es) < weight (.keep ks :: es) := by
  unfold keepRun
  split
  · simp
  · simp
    omega

/-- An edit moved up as far as it goes. A deletion shares no lines with the kept ones, because it
adds none to the new sequence. -/
def slideUp (before : List Edit) (edit : Edit) (after : List Edit) : Focus :=
  match before, edit with
  | [], _ => ⟨[], edit, after⟩
  | .keep ks :: before, _ =>
      if _h : commonTail ks edit.new = [] then ⟨.keep ks :: before, edit, after⟩
      else
        slideUp (keepRun (ks.take (ks.length - (commonTail ks edit.new).length)) ++ before)
          (.insert (commonTail ks edit.new
            ++ edit.new.take (edit.new.length - (commonTail ks edit.new).length)))
          (keepAfter (commonTail ks edit.new) after)
  | .delete ds :: before, .delete es => slideUp before (.delete (ds ++ es)) after
  | .insert is :: before, .insert es => slideUp before (.insert (is ++ es)) after
  | e :: before, _ => slideUp before edit (e :: after)
termination_by weight before
decreasing_by
  · have hle := (commonTail_suffix_left ks edit.new).length_le
    exact weight_keepRun_lt before (by simp; omega) (List.length_pos_iff.2 _h)
  all_goals simp

/-- An edit moved down as far as it goes. -/
def slideDown (before : List Edit) (edit : Edit) (after : List Edit) : Focus :=
  match after, edit with
  | [], _ => ⟨before, edit, []⟩
  | .keep ks :: after, _ =>
      if _h : commonHead ks edit.new = [] then ⟨before, edit, .keep ks :: after⟩
      else
        slideDown (keepBefore (commonHead ks edit.new) before)
          (.insert (edit.new.drop (commonHead ks edit.new).length ++ commonHead ks edit.new))
          (keepRun (ks.drop (commonHead ks edit.new).length) ++ after)
  | .delete ds :: after, .delete es => slideDown before (.delete (es ++ ds)) after
  | .insert is :: after, .insert es => slideDown before (.insert (es ++ is)) after
  | e :: after, _ => slideDown (e :: before) edit after
termination_by weight after
decreasing_by
  · have hle := (commonHead_prefix_left ks edit.new).length_le
    exact weight_keepRun_lt after (by simp; omega) (List.length_pos_iff.2 _h)
  all_goals simp

@[simp] theorem old_keepAfter (ls : List Text) (es : List Edit) :
    Script.old (keepAfter ls es) = ls ++ Script.old es := by
  unfold keepAfter
  split <;> simp [Edit.old]

@[simp] theorem new_keepAfter (ls : List Text) (es : List Edit) :
    Script.new (keepAfter ls es) = ls ++ Script.new es := by
  unfold keepAfter
  split <;> simp [Edit.new]

@[simp] theorem old_keepBefore (ls : List Text) (es : List Edit) :
    Script.old (keepBefore ls es).reverse = Script.old es.reverse ++ ls := by
  unfold keepBefore
  split <;> simp [Edit.old]

@[simp] theorem new_keepBefore (ls : List Text) (es : List Edit) :
    Script.new (keepBefore ls es).reverse = Script.new es.reverse ++ ls := by
  unfold keepBefore
  split <;> simp [Edit.new]

theorem isKeep_slideUp (before : List Edit) (edit : Edit) (after : List Edit)
    (h : edit.isKeep = false) : (slideUp before edit after).edit.isKeep = false := by
  fun_induction slideUp before edit after with
  | case1 => exact h
  | case2 edit after ks before hs => rw [dif_pos hs]; exact h
  | case3 edit after ks before hs ih => rw [dif_neg hs]; exact ih rfl
  | case4 after ds before es ih => exact ih rfl
  | case5 after is before es ih => exact ih rfl
  | case6 edit after e before h1 h2 h3 ih => exact ih h

theorem old_slideUp (before : List Edit) (edit : Edit) (after : List Edit)
    (h : edit.isKeep = false) :
    (slideUp before edit after).script.old = Script.old (before.reverse ++ edit :: after) := by
  fun_induction slideUp before edit after with
  | case1 edit after => simp [script]
  | case2 edit after ks before hs => simp [dif_pos hs, script]
  | case3 edit after ks before hs ih =>
      have hk := List.suffix_iff_eq_append.1 (commonTail_suffix_left ks edit.new)
      have hr := List.suffix_iff_eq_append.1 (commonTail_suffix_right ks edit.new)
      rw [dif_neg hs, ih rfl]
      cases edit with
      | keep ls => cases h
      | delete ls => simp [Edit.new] at hs
      | insert ls =>
          simp only [Edit.new] at hk hr ⊢
          generalize commonTail ks ls = shared at hk hr ⊢
          generalize ks.take _ = kept at hk ⊢
          generalize ls.take _ = rest at hr ⊢
          subst hk hr
          simp [Edit.old]
  | case4 after ds before es ih => simp [ih h, Edit.old]
  | case5 after is before es ih => simp [ih h, Edit.old]
  | case6 edit after e before h1 h2 h3 ih =>
      rw [ih h]
      cases e <;> cases edit <;> simp_all [Edit.old, Edit.isKeep]

theorem new_slideUp (before : List Edit) (edit : Edit) (after : List Edit)
    (h : edit.isKeep = false) :
    (slideUp before edit after).script.new = Script.new (before.reverse ++ edit :: after) := by
  fun_induction slideUp before edit after with
  | case1 edit after => simp [script]
  | case2 edit after ks before hs => simp [dif_pos hs, script]
  | case3 edit after ks before hs ih =>
      have hk := List.suffix_iff_eq_append.1 (commonTail_suffix_left ks edit.new)
      have hr := List.suffix_iff_eq_append.1 (commonTail_suffix_right ks edit.new)
      rw [dif_neg hs, ih rfl]
      cases edit with
      | keep ls => cases h
      | delete ls => simp [Edit.new] at hs
      | insert ls =>
          simp only [Edit.new] at hk hr ⊢
          generalize commonTail ks ls = shared at hk hr ⊢
          generalize ks.take _ = kept at hk ⊢
          generalize ls.take _ = rest at hr ⊢
          subst hk hr
          simp [Edit.new]
  | case4 after ds before es ih => simp [ih h, Edit.new]
  | case5 after is before es ih => simp [ih h, Edit.new]
  | case6 edit after e before h1 h2 h3 ih =>
      rw [ih h]
      cases e <;> cases edit <;> simp_all [Edit.new, Edit.isKeep]

theorem old_slideDown (before : List Edit) (edit : Edit) (after : List Edit)
    (h : edit.isKeep = false) :
    (slideDown before edit after).script.old = Script.old (before.reverse ++ edit :: after) := by
  fun_induction slideDown before edit after with
  | case1 before edit => simp [script]
  | case2 before edit ks after hs => simp [dif_pos hs, script]
  | case3 before edit ks after hs ih =>
      have hk := List.prefix_iff_eq_append.1 (commonHead_prefix_left ks edit.new)
      have hr := List.prefix_iff_eq_append.1 (commonHead_prefix_right ks edit.new)
      rw [dif_neg hs, ih rfl]
      cases edit with
      | keep ls => cases h
      | delete ls => simp [Edit.new] at hs
      | insert ls =>
          simp only [Edit.new] at hk hr ⊢
          generalize commonHead ks ls = shared at hk hr ⊢
          generalize ks.drop _ = kept at hk ⊢
          generalize ls.drop _ = rest at hr ⊢
          subst hk hr
          simp [Edit.old]
  | case4 before ds after es ih => simp [ih h, Edit.old]
  | case5 before is after es ih => simp [ih h, Edit.old]
  | case6 before edit e after h1 h2 h3 ih =>
      rw [ih h]
      cases e <;> cases edit <;> simp_all [Edit.old, Edit.isKeep]

theorem new_slideDown (before : List Edit) (edit : Edit) (after : List Edit)
    (h : edit.isKeep = false) :
    (slideDown before edit after).script.new = Script.new (before.reverse ++ edit :: after) := by
  fun_induction slideDown before edit after with
  | case1 before edit => simp [script]
  | case2 before edit ks after hs => simp [dif_pos hs, script]
  | case3 before edit ks after hs ih =>
      have hk := List.prefix_iff_eq_append.1 (commonHead_prefix_left ks edit.new)
      have hr := List.prefix_iff_eq_append.1 (commonHead_prefix_right ks edit.new)
      rw [dif_neg hs, ih rfl]
      cases edit with
      | keep ls => cases h
      | delete ls => simp [Edit.new] at hs
      | insert ls =>
          simp only [Edit.new] at hk hr ⊢
          generalize commonHead ks ls = shared at hk hr ⊢
          generalize ks.drop _ = kept at hk ⊢
          generalize ls.drop _ = rest at hr ⊢
          subst hk hr
          simp [Edit.new]
  | case4 before ds after es ih => simp [ih h, Edit.new]
  | case5 before is after es ih => simp [ih h, Edit.new]
  | case6 before edit e after h1 h2 h3 ih =>
      rw [ih h]
      cases e <;> cases edit <;> simp_all [Edit.new, Edit.isKeep]

end Focus

/-- Slide the chosen edits of a script, one after the other from the front, at most `steps` steps.
The steps that are done with are listed from the nearest one. -/
def slideFrom (chosen : Edit → Bool) : (steps : Nat) → (done rest : List Edit) → Script
  | 0, done, rest => done.reverse ++ rest
  | _ + 1, done, [] => done.reverse
  | steps + 1, done, e :: rest =>
      if chosen e then
        let up := Focus.slideUp done e rest
        let f := Focus.slideDown up.before up.edit up.after
        slideFrom chosen steps (f.edit :: f.before) f.after
      else slideFrom chosen steps (e :: done) rest

/-- Slide the chosen edits of a script. A step goes past an edit unless it joined two of them, so
there are fewer steps than the square of the script's weight. -/
def slide (chosen : Edit → Bool) (s : Script) : Script :=
  slideFrom chosen ((Focus.weight s + 1) * (Focus.weight s + 1)) [] s

theorem old_slideFrom {chosen : Edit → Bool} (h : ∀ e, chosen e = true → e.isKeep = false)
    (steps : Nat) (done rest : List Edit) :
    (slideFrom chosen steps done rest).old = Script.old (done.reverse ++ rest) := by
  fun_induction slideFrom chosen steps done rest with
  | case1 done rest => rfl
  | case2 steps done => simp
  | case3 steps done e rest he up f ih =>
      have hf : f.script.old = up.script.old :=
        Focus.old_slideDown _ _ _ (Focus.isKeep_slideUp done e rest (h e he))
      have hu : up.script.old = _ := Focus.old_slideUp done e rest (h e he)
      simpa [Focus.script, ← hu] using ih.trans (by simpa [Focus.script] using hf)
  | case4 steps done e rest he ih => simpa using ih

theorem new_slideFrom {chosen : Edit → Bool} (h : ∀ e, chosen e = true → e.isKeep = false)
    (steps : Nat) (done rest : List Edit) :
    (slideFrom chosen steps done rest).new = Script.new (done.reverse ++ rest) := by
  fun_induction slideFrom chosen steps done rest with
  | case1 done rest => rfl
  | case2 steps done => simp
  | case3 steps done e rest he up f ih =>
      have hf : f.script.new = up.script.new :=
        Focus.new_slideDown _ _ _ (Focus.isKeep_slideUp done e rest (h e he))
      have hu : up.script.new = _ := Focus.new_slideUp done e rest (h e he)
      simpa [Focus.script, ← hu] using ih.trans (by simpa [Focus.script] using hf)
  | case4 steps done e rest he ih => simpa using ih

theorem old_slide {chosen : Edit → Bool} (h : ∀ e, chosen e = true → e.isKeep = false)
    (s : Script) : (slide chosen s).old = s.old := old_slideFrom h _ [] s

theorem new_slide {chosen : Edit → Bool} (h : ∀ e, chosen e = true → e.isKeep = false)
    (s : Script) : (slide chosen s).new = s.new := new_slideFrom h _ [] s

/-- The script with the deletions slid first and then the insertions. -/
def Script.settle (s : Script) : Script := slide Edit.isInsert (slide Edit.isDelete s)

theorem Script.old_settle (s : Script) : s.settle.old = s.old := by
  rw [settle, old_slide, old_slide] <;> rintro (_ | _ | _) <;>
    simp [Edit.isDelete, Edit.isInsert, Edit.isKeep]

theorem Script.new_settle (s : Script) : s.settle.new = s.new := by
  rw [settle, new_slide, new_slide] <;> rintro (_ | _ | _) <;>
    simp [Edit.isDelete, Edit.isInsert, Edit.isKeep]

end SamplerPorts.Diff
