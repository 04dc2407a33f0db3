/-! # Schedulable processes

A thread `t` of the checked program is the process `thread t`.  Where stores are buffered, its
companion `flush t` commits the oldest buffered store of the thread to memory.

Processes are ordered: all threads come before all flushes, and within each kind the number
decides.  `index` numbers the processes densely, which is how clocks address them. -/

namespace Interleave

/-- A schedulable process. -/
inductive Proc where
  | thread (t : Nat)
  | flush (t : Nat)
deriving DecidableEq, Repr, Inhabited

namespace Proc

/-- The thread to which a process belongs. -/
def owner : Proc → Nat
  | thread t => t
  | flush t => t

/-- Dense number of a process. -/
def index : Proc → Nat
  | thread t => 2 * t
  | flush t => 2 * t + 1

/-- Name of a process in reports. -/
def text : Proc → String
  | thread t => s!"T{t}"
  | flush t => s!"T{t}.buf"

/-- Threads before flushes, then by number. -/
def before : Proc → Proc → Bool
  | thread t, thread u => t < u
  | thread _, flush _ => true
  | flush _, thread _ => false
  | flush t, flush u => t < u

instance : LT Proc := ⟨fun p q => p.before q = true⟩

instance (p q : Proc) : Decidable (p < q) := inferInstanceAs (Decidable (p.before q = true))

theorem lt_def (p q : Proc) : p < q ↔ p.before q = true := Iff.rfl

theorem lt_irrefl (p : Proc) : ¬ p < p := by
  cases p <;> simp [lt_def, before]

theorem lt_trans {p q r : Proc} (h : p < q) (h' : q < r) : p < r := by
  cases p <;> cases q <;> cases r <;> simp_all [lt_def, before] <;> omega

theorem lt_or_eq_or_gt (p q : Proc) : p < q ∨ p = q ∨ q < p := by
  cases p <;> cases q <;> simp [lt_def, before] <;> omega

theorem index_injective {p q : Proc} (h : p.index = q.index) : p = q := by
  cases p <;> cases q <;> simp_all [index] <;> omega

/-- The least process of a list. -/
def least? : List Proc → Option Proc
  | [] => none
  | p :: ps =>
    match least? ps with
    | none => some p
    | some q => if q < p then some q else some p

end Proc

end Interleave
