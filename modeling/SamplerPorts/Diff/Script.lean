import SamplerPorts.Text.Basic

/-!
Edit scripts. A script walks two sequences of lines side by side: some lines are in both, some only
in the old one and some only in the new one. `Script.old` and `Script.new` are the sequences that
it walks.
-/

namespace SamplerPorts.Diff

/-- One step of a script over a run of lines. -/
inductive Edit where
  | keep (ls : List Text)
  | delete (ls : List Text)
  | insert (ls : List Text)
  deriving DecidableEq

namespace Edit

def old : Edit → List Text
  | keep ls | delete ls => ls
  | insert _ => []

def new : Edit → List Text
  | keep ls | insert ls => ls
  | delete _ => []

def lines : Edit → List Text
  | keep ls | delete ls | insert ls => ls

@[simp] theorem lines_keep (ls : List Text) : (keep ls).lines = ls := rfl
@[simp] theorem lines_delete (ls : List Text) : (delete ls).lines = ls := rfl
@[simp] theorem lines_insert (ls : List Text) : (insert ls).lines = ls := rfl

end Edit

abbrev Script := List Edit

namespace Script

def old (s : Script) : List Text := s.flatMap Edit.old

def new (s : Script) : List Text := s.flatMap Edit.new

@[simp] theorem old_nil : old [] = [] := rfl
@[simp] theorem new_nil : new [] = [] := rfl

@[simp] theorem old_cons (e : Edit) (s : Script) : old (e :: s) = e.old ++ old s := rfl
@[simp] theorem new_cons (e : Edit) (s : Script) : new (e :: s) = e.new ++ new s := rfl

@[simp] theorem old_append (s t : Script) : old (s ++ t) = old s ++ old t := by simp [old]
@[simp] theorem new_append (s t : Script) : new (s ++ t) = new s ++ new t := by simp [new]

end Script

def commonHead : List Text → List Text → List Text
  | a :: as, b :: bs => if a = b then a :: commonHead as bs else []
  | _, _ => []

def commonTail (as bs : List Text) : List Text := (commonHead as.reverse bs.reverse).reverse

@[simp] theorem commonHead_nil (as : List Text) : commonHead as [] = [] := by
  cases as <;> rfl

@[simp] theorem commonTail_nil (as : List Text) : commonTail as [] = [] := by simp [commonTail]

theorem commonHead_prefix_left (as bs : List Text) : commonHead as bs <+: as := by
  fun_induction commonHead as bs with
  | case1 a as bs ih => simpa using ih
  | case2 | case3 => simp

theorem commonHead_prefix_right (as bs : List Text) : commonHead as bs <+: bs := by
  fun_induction commonHead as bs with
  | case1 a as bs ih => simpa using ih
  | case2 | case3 => simp

theorem commonTail_suffix_left (as bs : List Text) : commonTail as bs <:+ as := by
  simpa [commonTail] using List.reverse_suffix.2 (commonHead_prefix_left as.reverse bs.reverse)

theorem commonTail_suffix_right (as bs : List Text) : commonTail as bs <:+ bs := by
  simpa [commonTail] using List.reverse_suffix.2 (commonHead_prefix_right as.reverse bs.reverse)

end SamplerPorts.Diff
