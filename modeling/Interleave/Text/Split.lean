import Interleave.Text.Blank

/-! # Cutting a text into pieces

* `after? p s` is what follows `p` at the start of `s`, `before? e s` what precedes `e` at its end;
* `cut c s` splits `s` around the first `c`, `fields c s` around every `c`;
* `lines s` are the lines of `s`: each ends at a line feed, which is dropped together with one
  carriage return in front of it, and an empty piece after the last line feed is no line. -/

namespace Interleave.Text

/-- What follows `p`, if the text starts with `p`. -/
def after? : List Char → List Char → Option (List Char)
  | [], s => some s
  | _ :: _, [] => none
  | p :: ps, c :: cs => if p = c then after? ps cs else none

/-- What precedes the character `e`, if the text ends with it. -/
def before? (e : Char) (s : List Char) : Option (List Char) :=
  if s.getLast? = some e then some s.dropLast else none

/-- The parts in front of and behind the first `c`. -/
def cut (c : Char) : List Char → Option (List Char × List Char)
  | [] => none
  | d :: s => if d = c then some ([], s) else (cut c s).map fun (a, b) => (d :: a, b)

/-- The pieces between the occurrences of `c`; there is always at least one. -/
def fields (c : Char) : List Char → List (List Char)
  | [] => [[]]
  | d :: s =>
    if d = c then [] :: fields c s
    else match fields c s with
      | [] => [[d]]
      | f :: fs => (d :: f) :: fs

/-- The lines of a text. -/
def lines (s : List Char) : List (List Char) :=
  let pieces := fields '\n' s
  pieces.dropLast.map (fun l => (before? '\r' l).getD l)
    ++ (pieces.getLast?.toList.filter fun l => !l.isEmpty)

/-! ### Recombining the pieces -/

@[simp] theorem after?_append (p s : List Char) : after? p (p ++ s) = some s := by
  induction p with
  | nil => rfl
  | cons c p ih => simpa [after?] using ih

theorem eq_append_of_after? {p s r : List Char} (h : after? p s = some r) : s = p ++ r := by
  induction p generalizing s with
  | nil => simpa [after?] using h
  | cons c p ih =>
    cases s with
    | nil => simp [after?] at h
    | cons d s =>
      by_cases hc : c = d
      · simp only [after?, hc, if_true] at h
        simp [hc, ih h]
      · simp [after?, hc] at h

@[simp] theorem before?_append (e : Char) (s : List Char) : before? e (s ++ [e]) = some s := by
  simp [before?]

theorem fields_ne_nil (c : Char) (s : List Char) : fields c s ≠ [] := by
  cases s with
  | nil => simp [fields]
  | cons d s =>
    simp only [fields]
    split
    · simp
    · split <;> simp

end Interleave.Text
