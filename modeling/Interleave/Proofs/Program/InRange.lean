import Interleave.Proofs.Result
import Interleave.Proofs.Text
import Mathlib.Order.Nat

/-! # The indices in a program

An instruction refers to registers, globals, functions and positions by index.  In every program that
can be read, each of these exists (`Program.inRange_read`).

Registers are numbered while a body is read, so that an index is known to exist before the number of
registers is (`Reader.Reads`).  Globals and functions are numbered in the first pass and collected in the
second; both count the same, because no line of a body that can be read declares a name
(`Reader.lineStep_of_readLine`). -/

namespace Interleave

/-- The registers that an operand names. -/
def Operand.registers : Operand → List Reg
  | reg r => [r]
  | imm _ => []

namespace Location

/-- The registers that a memory operand names. -/
def registers : Location → List Reg
  | global _ => []
  | indirect r => [r]

/-- The globals that a memory operand names. -/
def globals : Location → List Nat
  | global g => [g]
  | indirect _ => []

end Location

namespace Instr

variable {τ : Type}

/-- The registers that an instruction names. -/
def registers : Instr τ → List Reg
  | mov d v => d :: v.registers
  | bin _ d l r => d :: (l.registers ++ r.registers)
  | load d l => d :: l.registers
  | store l v => l.registers ++ v.registers
  | addr d _ | spawn d _ => [d]
  | lock l | unlock l => l.registers
  | join v | assert v | branch v _ _ => v.registers
  | call _ args => args.flatMap Operand.registers
  | fence | jump _ | ret => []

/-- The globals that an instruction names. -/
def globals : Instr τ → List Nat
  | load _ l | store l _ | lock l | unlock l => l.globals
  | addr _ g => [g]
  | _ => []

/-- The functions that an instruction names. -/
def functions : Instr τ → List Nat
  | spawn _ f => [f]
  | _ => []

/-- The targets that an instruction may jump to. -/
def targets : Instr τ → List τ
  | jump t | branch _ _ t => [t]
  | _ => []

end Instr

/-- The indices in a function exist, in a program with the given numbers of globals and functions. -/
structure Function.InRange (f : Function) (globals functions : Nat) : Prop where
  registers : ∀ i ∈ f.body, ∀ r ∈ i.registers, r < f.registers.length
  globals : ∀ i ∈ f.body, ∀ g ∈ i.globals, g < globals
  functions : ∀ i ∈ f.body, ∀ h ∈ i.functions, h < functions
  /-- A jump may lead behind the last instruction. -/
  targets : ∀ i ∈ f.body, ∀ pc ∈ i.targets, pc ≤ f.body.length

/-- All indices in a program exist. -/
def Program.InRange (p : Program) : Prop :=
  ∀ f ∈ p.functions, f.InRange p.globals.length p.functions.length

namespace Reader

open Text

/-! ### Operands -/

/-- If `n` registers are known at first, more may be known behind the computation, and what it yields
fits the number of those. -/
def Reads {α : Type} (n : Nat) (P : Nat → α → Prop) (x : InBody α) : Prop :=
  ∀ known a known', n ≤ known.length → x known = .ok (a, known') →
    known.length ≤ known'.length ∧ P known'.length a

section

variable {α β : Type} {n : Nat} {P : Nat → α → Prop} {Q : Nat → β → Prop} {x : InBody α}
  {f : α → InBody β}

theorem reads_pure {a : α} (h : ∀ k, n ≤ k → P k a) : Reads n P (pure a) := by
  intro known b known' hn hx
  cases hx
  exact ⟨le_rfl, h _ hn⟩

theorem reads_throw (e : ReadError) : Reads n P (throw e) := by
  intro known a known' _ hx
  cases hx

theorem reads_lift {y : Except ReadError α} (h : ∀ a, y = .ok a → ∀ k, P k a) :
    Reads n P (liftM y) := by
  intro known a known' _ hx
  cases y with
  | error e => cases hx
  | ok b =>
      cases hx
      exact ⟨le_rfl, h a rfl _⟩

theorem Reads.bind (hx : Reads n P x) (hf : ∀ a k, n ≤ k → P k a → Reads k Q (f a)) :
    Reads n Q (x >>= f) := by
  intro known b known' hn h
  have hbind : (x >>= f) known = (x known) >>= fun y => f y.1 y.2 := rfl
  rw [hbind] at h
  obtain ⟨⟨a, known₁⟩, hy, h⟩ := exists_of_bind h
  obtain ⟨hle, ha⟩ := hx known a known₁ hn hy
  obtain ⟨hle', hb⟩ := hf a known₁.length (hn.trans hle) ha known₁ b known' le_rfl h
  exact ⟨hle.trans hle', hb⟩

end

theorem lt_of_idxOf? {name : String} {names : List String} {i : Nat} (h : names.idxOf? name = some i) :
    i < names.length := by
  rw [List.idxOf?_eq_some_iff] at h
  exact h.1

theorem reads_register (n : Nat) (s : List Char) : Reads n (fun k r => r < k) (register s) := by
  unfold register
  split
  · split
    · intro known r known' _ h
      simp only [registerNumber] at h
      split at h
      · rename_i hidx
        cases h
        exact ⟨le_rfl, lt_of_idxOf? hidx⟩
      · cases h
        simp
    · exact reads_throw _
  · exact reads_throw _

theorem reads_operand (n : Nat) (s : List Char) :
    Reads n (fun k v => ∀ r ∈ v.registers, r < k) (operand s) := by
  unfold operand
  split
  · refine (reads_register n _).bind fun r k _ hr => reads_pure fun k' hk => ?_
    simpa [Operand.registers] using hr.trans_le hk
  · refine Reads.bind (P := fun _ _ => True) (reads_lift fun _ _ _ => trivial) fun v k _ _ => ?_
    exact reads_pure fun k' _ => by simp [Operand.registers]

theorem globalIndex_lt {symbols : Symbols} {s : List Char} {g : Nat}
    (h : globalIndex symbols s = .ok g) : g < symbols.globals.length := by
  unfold globalIndex at h
  split at h
  · split at h
    · rename_i hidx
      cases h
      exact lt_of_idxOf? hidx
    · cases h
  · cases h

theorem functionIndex_lt {symbols : Symbols} {s : List Char} {f : Nat}
    (h : functionIndex symbols s = .ok f) : f < symbols.functions.length := by
  unfold functionIndex at h
  split at h
  · rename_i hidx
    cases h
    exact lt_of_idxOf? hidx
  · cases h

theorem reads_location (symbols : Symbols) (n : Nat) (s : List Char) : Reads n
    (fun k l => (∀ r ∈ l.registers, r < k) ∧ ∀ g ∈ l.globals, g < symbols.globals.length)
    (location symbols s) := by
  unfold location
  split
  · refine (reads_register n _).bind fun r k _ hr => reads_pure fun k' hk => ?_
    simpa [Location.registers, Location.globals] using hr.trans_le hk
  · refine Reads.bind (P := fun _ g => g < symbols.globals.length)
      (reads_lift fun g hg _ => globalIndex_lt hg) fun g k _ hg => reads_pure fun k' _ => ?_
    simpa [Location.registers, Location.globals] using hg

theorem reads_operands (n : Nat) (ss : List (List Char)) :
    Reads n (fun k vs => ∀ v ∈ vs, ∀ r ∈ v.registers, r < k) (ss.mapM operand) := by
  induction ss generalizing n with
  | nil => exact reads_pure fun _ _ => by simp
  | cons s ss ih =>
      rw [List.mapM_cons]
      refine (reads_operand n s).bind fun v k _ hv => (ih k).bind fun vs k' hk' hvs => ?_
      refine reads_pure fun k'' hk'' => ?_
      intro u hu r hr
      rcases List.mem_cons.mp hu with rfl | hu
      · exact (hv r hr).trans_le (hk'.trans hk'')
      · exact (hvs u hu r hr).trans_le hk''

/-! ### Instructions -/

/-- The indices in an instruction exist, if `n` registers are known. -/
structure Fits {τ : Type} (symbols : Symbols) (n : Nat) (i : Instr τ) : Prop where
  registers : ∀ r ∈ i.registers, r < n
  globals : ∀ g ∈ i.globals, g < symbols.globals.length
  functions : ∀ f ∈ i.functions, f < symbols.functions.length

variable {symbols : Symbols} {n : Nat}

theorem reads_callee (s : List Char) : Reads n (Fits symbols) (callee s) := by
  unfold callee
  split
  · split
    · exact reads_throw _
    · split
      · exact reads_throw _
      · dsimp only
        split
        · refine (reads_operands n _).bind fun vs k _ hvs => reads_pure fun k' hk => ?_
          refine ⟨?_, by simp [Instr.globals], by simp [Instr.functions]⟩
          intro r hr
          obtain ⟨v, hv, hr⟩ := List.mem_flatMap.mp hr
          exact (hvs v hv r hr).trans_le hk
        · exact reads_throw _
  · exact reads_throw _

/-- The registers in front of an instruction's last operand are still known behind it. -/
theorem Fits.mono {τ : Type} {i : Instr τ} {k : Nat} (h : Fits symbols n i) (hk : n ≤ k) :
    Fits symbols k i where
  registers r hr := (h.registers r hr).trans_le hk
  globals := h.globals
  functions := h.functions

theorem reads_of_fits {i : Instr Target} (hregisters : ∀ r ∈ i.registers, r < n)
    (hglobals : ∀ g ∈ i.globals, g < symbols.globals.length := by simp [Instr.globals])
    (hfunctions : ∀ f ∈ i.functions, f < symbols.functions.length := by simp [Instr.functions]) :
    Reads n (Fits symbols) (pure i) :=
  reads_pure fun _ hk => Fits.mono ⟨hregisters, hglobals, hfunctions⟩ hk

theorem reads_any {α : Type} (y : Except ReadError α) : Reads n (fun _ _ => True) (liftM y : InBody α) :=
  reads_lift fun _ _ _ => trivial

theorem reads_withOperand {f : Operand → Instr Target} (s : List Char)
    (hf : ∀ v, (f v).registers = v.registers ∧ (f v).globals = [] ∧ (f v).functions = []) :
    Reads n (Fits symbols) (do return f (← operand s)) := by
  refine (reads_operand n s).bind fun v k _ hv => ?_
  obtain ⟨hregisters, hglobals, hfunctions⟩ := hf v
  exact reads_of_fits (hregisters ▸ hv) (by simp [hglobals]) (by simp [hfunctions])

theorem reads_withLocation {f : Location → Instr Target} (s : List Char)
    (hf : ∀ l, (f l).registers = l.registers ∧ (f l).globals = l.globals ∧ (f l).functions = []) :
    Reads n (Fits symbols) (do return f (← location symbols s)) := by
  refine (reads_location symbols n s).bind fun l k _ hl => ?_
  obtain ⟨hregisters, hglobals, hfunctions⟩ := hf l
  exact reads_of_fits (hregisters ▸ hl.1) (hglobals ▸ hl.2) (by simp [hfunctions])

theorem reads_branch (line : Nat) (ifZero : Bool) (c t : List Char) : Reads n (Fits symbols)
    (do return .branch (← operand c) ifZero (← target line t)) := by
  refine (reads_operand n c).bind fun c k _ hc => (reads_any _).bind fun t k₁ hk₁ _ => ?_
  exact reads_of_fits fun r hr => (hc r hr).trans_le hk₁

theorem reads_instruction (line : Nat) (s : List Char) :
    Reads n (Fits symbols) (instruction symbols line s) := by
  unfold instruction
  dsimp only
  generalize String.ofList (s.takeWhile (!isBlank ·)) = op
  generalize trim (s.dropWhile (!isBlank ·)) = rest
  split
  · -- an operation on two values
    apply (reads_any _).bind
    rintro ⟨d, l, r⟩ k - -
    refine (reads_register k d).bind fun d k₁ _ hd => (reads_operand k₁ l).bind fun l k₂ hk₂ hl =>
      (reads_operand k₂ r).bind fun r k₃ hk₃ hr => reads_of_fits ?_
    grind [Instr.registers]
  · split
    · -- mov
      apply (reads_any _).bind
      rintro ⟨d, v⟩ k - -
      refine (reads_register k d).bind fun d k₁ _ hd => (reads_operand k₁ v).bind fun v k₂ hk₂ hv =>
        reads_of_fits ?_
      grind [Instr.registers]
    · -- load
      apply (reads_any _).bind
      rintro ⟨d, l⟩ k - -
      refine (reads_register k d).bind fun d k₁ _ hd =>
        (reads_location symbols k₁ l).bind fun l k₂ hk₂ hl => reads_of_fits ?_ hl.2
      grind [Instr.registers]
    · -- store
      apply (reads_any _).bind
      rintro ⟨l, v⟩ k - -
      refine (reads_location symbols k l).bind fun l k₁ _ hl =>
        (reads_operand k₁ v).bind fun v k₂ hk₂ hv => reads_of_fits ?_ hl.2
      grind [Instr.registers]
    · -- addr
      apply (reads_any _).bind
      rintro ⟨d, g⟩ k - -
      refine (reads_register k d).bind fun d k₁ _ hd => ?_
      refine Reads.bind (reads_lift fun g hg _ => globalIndex_lt hg) fun g k₂ hk₂ hg => ?_
      exact reads_of_fits (by simpa [Instr.registers] using hd.trans_le hk₂)
        (by simpa [Instr.globals] using hg)
    · -- fence
      exact (reads_any _).bind fun _ k _ _ => reads_of_fits (by simp [Instr.registers])
    · -- spawn
      apply (reads_any _).bind
      rintro ⟨d, f⟩ k - -
      refine (reads_register k d).bind fun d k₁ _ hd => ?_
      refine Reads.bind (reads_lift fun f hf _ => functionIndex_lt hf) fun f k₂ hk₂ hf => ?_
      refine reads_of_fits (by simpa [Instr.registers] using hd.trans_le hk₂) ?_ ?_
      · simp [Instr.globals]
      · simpa [Instr.functions] using hf
    · -- join
      exact (reads_any _).bind fun v _ _ _ => reads_withOperand v fun _ => ⟨rfl, rfl, rfl⟩
    · -- lock
      exact (reads_any _).bind fun l _ _ _ => reads_withLocation l fun _ => ⟨rfl, rfl, rfl⟩
    · -- unlock
      exact (reads_any _).bind fun l _ _ _ => reads_withLocation l fun _ => ⟨rfl, rfl, rfl⟩
    · -- assert
      exact (reads_any _).bind fun v _ _ _ => reads_withOperand v fun _ => ⟨rfl, rfl, rfl⟩
    · -- jmp
      exact (reads_any _).bind fun t _ _ _ => (reads_any _).bind fun _ _ _ _ =>
        reads_of_fits (by simp [Instr.registers])
    · -- brz
      apply (reads_any _).bind
      rintro ⟨c, t⟩ k - -
      exact reads_branch line true c t
    · -- brnz
      apply (reads_any _).bind
      rintro ⟨c, t⟩ k - -
      exact reads_branch line false c t
    · -- call
      exact reads_callee rest
    · -- ret
      exact (reads_any _).bind fun _ k _ _ => reads_of_fits (by simp [Instr.registers])
    · -- unknown
      exact reads_throw _

/-! ### Bodies -/

/-- The indices in a body exist, and its labels lead nowhere beyond its end. -/
structure Body.Fits (symbols : Symbols) (b : Body) : Prop where
  instrs : ∀ i ∈ b.instrs, Reader.Fits symbols b.registers.length i
  labels : ∀ x ∈ b.labels, x.2 ≤ b.instrs.length

/-- A line of a body gives a label or an instruction. -/
theorem Body.readLine_cases {b b' : Body} {l : Line} (h : b.readLine symbols l = .ok b') :
    (∃ s, before? ':' l.content = some s ∧ isIdent (trim s) = true ∧
      b' = { b with labels := b.labels ++ [(String.ofList (trim s), b.instrs.length)] }) ∨
    ∃ i registers, instruction symbols l.number l.content b.registers = .ok (i, registers) ∧
      b' = { b with registers, instrs := b.instrs ++ [i] } := by
  unfold Body.readLine at h
  split at h
  · rename_i s hs
    dsimp only at h
    split at h
    · cases h
    · rename_i hident
      split at h
      · cases h
      · cases h
        exact .inl ⟨s, hs, by simpa using hident, rfl⟩
  · obtain ⟨⟨i, registers⟩, hread, h⟩ := exists_of_bind h
    cases h
    exact .inr ⟨i, registers, hread, rfl⟩

theorem Body.Fits.readLine {b b' : Body} {l : Line} (h : b.Fits symbols)
    (hb : b.readLine symbols l = .ok b') : b'.Fits symbols := by
  rcases Body.readLine_cases hb with ⟨s, -, -, rfl⟩ | ⟨i, registers, hread, rfl⟩
  · refine ⟨h.instrs, fun x hx => ?_⟩
    rcases List.mem_append.mp hx with hx | hx
    · exact h.labels x hx
    · rw [List.mem_singleton.mp hx]
  · obtain ⟨hle, hi⟩ := reads_instruction l.number l.content b.registers i registers le_rfl hread
    refine ⟨fun j hj => ?_, fun x hx => ?_⟩
    · rcases List.mem_append.mp hj with hj | hj
      · exact (h.instrs j hj).mono hle
      · rw [List.mem_singleton.mp hj]
        exact hi
    · rw [List.length_append]
      exact (h.labels x hx).trans (Nat.le_add_right _ _)

/-- Only the targets of an instruction are replaced. -/
theorem of_retarget {τ υ ε : Type} {f : τ → Except ε υ} {i : Instr τ} {j : Instr υ}
    (h : retarget f i = .ok j) : j.registers = i.registers ∧ j.globals = i.globals ∧
      j.functions = i.functions ∧ ∀ pc ∈ j.targets, ∃ t ∈ i.targets, f t = .ok pc := by
  cases i with
  | jump t =>
      cases ht : f t with
      | error e => simp [retarget, ht, Except.map] at h
      | ok pc =>
          simp only [retarget, ht, Except.map, Except.ok.injEq] at h
          subst h
          simp [Instr.registers, Instr.globals, Instr.functions, Instr.targets, ht]
  | branch c z t =>
      cases ht : f t with
      | error e => simp [retarget, ht, Except.map] at h
      | ok pc =>
          simp only [retarget, ht, Except.map, Except.ok.injEq] at h
          subst h
          simp [Instr.registers, Instr.globals, Instr.functions, Instr.targets, ht]
  | _ =>
      cases h
      simp [Instr.registers, Instr.globals, Instr.functions, Instr.targets]

theorem Body.exists_label {b : Body} {t : Target} {pc : Nat} (h : b.position t = .ok pc) :
    ∃ x ∈ b.labels, x.2 = pc := by
  unfold Body.position at h
  split at h
  · rename_i hlookup
    cases h
    obtain ⟨before, rest, hlabels, -⟩ := List.lookup_eq_some_iff.mp hlookup
    exact ⟨_, hlabels ▸ List.mem_append_right before List.mem_cons_self, rfl⟩
  · cases h

theorem Body.Fits.finish {b : Body} {f : Function} (h : b.Fits symbols) (hf : b.finish = .ok f) :
    f.InRange symbols.globals.length symbols.functions.length := by
  obtain ⟨body, hbody, hf⟩ := exists_of_bind hf
  cases hf
  have hlength := length_mapM hbody
  have hfrom : ∀ j ∈ body, ∃ i ∈ b.instrs, retarget b.position i = .ok j :=
    fun j hj => exists_of_mem_mapM hbody hj
  refine ⟨?_, ?_, ?_, ?_⟩
  all_goals
    intro j hj
    obtain ⟨i, hi, hij⟩ := hfrom j hj
    obtain ⟨hregisters, hglobals, hfunctions, htargets⟩ := of_retarget hij
  · rw [hregisters]
    exact (h.instrs i hi).registers
  · rw [hglobals]
    exact (h.instrs i hi).globals
  · rw [hfunctions]
    exact (h.instrs i hi).functions
  · intro pc hpc
    obtain ⟨t, -, ht⟩ := htargets pc hpc
    obtain ⟨x, hx, rfl⟩ := Body.exists_label ht
    exact (h.labels x hx).trans_eq hlength.symm

/-! ### The two passes -/

theorem isIdent_eq_false {c : Char} {s : List Char} (h : c ∈ s)
    (hc : (c.isAlphanum || c == '_' || c == '.') = false) : isIdent s = false := by
  rw [Bool.eq_false_iff]
  intro hs
  cases s with
  | nil => cases h
  | cons d s =>
      rw [isIdent, Bool.and_eq_true, List.all_eq_true] at hs
      rcases List.mem_cons.mp h with rfl | h
      · rw [Char.isAlphanum] at hc
        simp_all
      · rw [hs.2 c h] at hc
        cases hc

section

variable {b b' : Body} {l : Line} {rest : List Char}

theorem instruction_global (symbols : Symbols) (n : Nat) (rest : List Char) :
    instruction symbols n ("global ".toList ++ rest) = throw (.unknownInstruction "global") := rfl

theorem instruction_function (symbols : Symbols) (n : Nat) (rest : List Char) :
    instruction symbols n ("fn ".toList ++ rest) = throw (.unknownInstruction "fn") := rfl

/-- In a body that can be read, no line declares a global.  It could only be read as a label. -/
theorem isIdent_globalName_of_readLine (h : b.readLine symbols l = .ok b')
    (hrest : after? "global ".toList l.content = some rest) : isIdent (globalName rest) = false := by
  have hcontent := eq_append_of_after? hrest
  rcases Body.readLine_cases h with ⟨s, hs, hlabel, -⟩ | ⟨i, registers, hread, -⟩
  · have hsplit := (before?_eq_some hs).symm.trans hcontent
    by_cases heq : '=' ∈ rest
    · -- then the label would contain it
      have hmem : '=' ∈ s ++ [':'] := hsplit ▸ List.mem_append_right _ heq
      have hmem : '=' ∈ s := (List.mem_append.mp hmem).resolve_right (by decide)
      rw [isIdent_eq_false (mem_trim hmem (by decide)) (by decide)] at hlabel
      cases hlabel
    · -- then the name goes up to the colon
      have hmem : ':' ∈ "global ".toList ++ rest := hsplit ▸ List.mem_append_right s (by decide)
      have hmem : ':' ∈ rest := (List.mem_append.mp hmem).resolve_left (by decide)
      have hall : rest.takeWhile (· != '=') = rest := by
        rw [List.takeWhile_eq_self_iff]
        intro c hc
        simpa using ne_of_mem_of_not_mem hc heq
      rw [globalName, hall]
      exact isIdent_eq_false (mem_trim hmem (by decide)) (by decide)
  · rw [hcontent, instruction_global] at hread
    cases hread

theorem isIdent_functionName_of_readLine (h : b.readLine symbols l = .ok b')
    (hrest : after? "fn ".toList l.content = some rest) : isIdent (functionName rest) = false := by
  have hcontent := eq_append_of_after? hrest
  rcases Body.readLine_cases h with ⟨s, hs, -, -⟩ | ⟨i, registers, hread, -⟩
  · have hsplit := (before?_eq_some hs).symm.trans hcontent
    have hmem : ':' ∈ "fn ".toList ++ rest := hsplit ▸ List.mem_append_right s (by decide)
    have hmem : ':' ∈ rest := (List.mem_append.mp hmem).resolve_left (by decide)
    exact isIdent_eq_false (mem_trim (mem_dropEndWhile hmem (by decide)) (by decide)) (by decide)
  · rw [hcontent, instruction_function] at hread
    cases hread

end

/-! #### The lines of a draft -/

variable {s s' : Symbols} {d d' : Draft} {l : Line} {rest : List Char}

theorem Draft.readDeclaration_cases {line : List Char} (h : d.readDeclaration line = .ok d') :
    (∃ rest layout, after? "target".toList line = some rest ∧ d' = { d with layout }) ∨
    (∃ rest g, after? "global ".toList line = some rest ∧ global rest = .ok g ∧
      d' = { d with globals := d.globals ++ [g] }) ∨
    ∃ rest name, after? "global ".toList line = none ∧ after? "fn ".toList line = some rest ∧
      before? '\x7b' rest = some name ∧
      d' = { d with current := some ⟨String.ofList (trim name), [], [], []⟩ } := by
  unfold Draft.readDeclaration at h
  split at h
  · rename_i htarget
    obtain ⟨rest, hrest⟩ := Option.isSome_iff_exists.mp htarget
    split at h
    · cases h
      exact .inl ⟨rest, _, hrest, rfl⟩
    · cases h
  · split at h
    · rename_i rest hrest
      obtain ⟨g, hg, h⟩ := exists_of_bind h
      cases h
      exact .inr (.inl ⟨rest, g, hrest, hg, rfl⟩)
    · rename_i rest hnone hrest
      split at h
      · rename_i name hname
        cases h
        exact .inr (.inr ⟨rest, name, hnone, hrest, hname, rfl⟩)
      · cases h
    · cases h

theorem of_atLine {α : Type} {n : Nat} {x : Except ReadError α} {a : α} (h : atLine n x = .ok a) :
    x = .ok a := by
  cases x with
  | error e => cases h
  | ok b =>
      cases h
      rfl

theorem Draft.readLine_cases (h : d.readLine symbols l = .ok d') :
    (∃ b f, d.current = some b ∧ l.content = ['\x7d'] ∧ b.finish = .ok f ∧
      d' = { d with functions := d.functions ++ [f], current := none }) ∨
    (∃ b b', d.current = some b ∧ b.readLine symbols l = .ok b' ∧ d' = { d with current := some b' }) ∨
    d.current = none ∧ d.readDeclaration l.content = .ok d' := by
  unfold Draft.readLine at h
  split at h
  · rename_i b hcurrent
    split at h
    · rename_i hbrace
      obtain ⟨f, hf, h⟩ := exists_of_bind h
      cases h
      exact .inl ⟨b, f, hcurrent, hbrace, hf, rfl⟩
    · obtain ⟨b', hb, h⟩ := exists_of_bind h
      cases h
      exact .inr (.inl ⟨b, b', hcurrent, of_atLine hb, rfl⟩)
  · rename_i hcurrent
    exact .inr (.inr ⟨hcurrent, of_atLine h⟩)

/-! #### One line in both passes -/

theorem addLine_global (h : s.addLine l.content = .ok s')
    (hrest : after? "global ".toList l.content = some rest) : isIdent (globalName rest) = true ∧
      String.ofList (globalName rest) ∉ s.globals ∧
      s' = { s with globals := s.globals ++ [String.ofList (globalName rest)] } := by
  simp only [Symbols.addLine, hrest] at h
  split at h
  · cases h
  · rename_i hident
    split at h
    · cases h
    · rename_i hnew
      cases h
      exact ⟨by simpa using hident, by simpa using hnew, rfl⟩

theorem addLine_function (h : s.addLine l.content = .ok s')
    (hnone : after? "global ".toList l.content = none)
    (hrest : after? "fn ".toList l.content = some rest) : isIdent (functionName rest) = true ∧
      String.ofList (functionName rest) ∉ s.functions ∧
      s' = { s with functions := s.functions ++ [String.ofList (functionName rest)] } := by
  simp only [Symbols.addLine, hnone, hrest] at h
  split at h
  · cases h
  · rename_i hident
    split at h
    · cases h
    · rename_i hnew
      cases h
      exact ⟨by simpa using hident, by simpa using hnew, rfl⟩

theorem addLine_nothing (h : s.addLine l.content = .ok s')
    (hglobal : after? "global ".toList l.content = none) (hfn : after? "fn ".toList l.content = none) :
    s' = s := by
  simp only [Symbols.addLine, hglobal, hfn] at h
  cases h
  rfl

/-- What a line does in both passes: `s` and `d` are what they have before it. -/
inductive LineStep (symbols : Symbols) (l : Line) (s : Symbols) (d : Draft) : Symbols → Draft → Prop where
  /-- The closing brace of a function. -/
  | closing {b : Body} {f : Function} (hd : d.current = some b)
      (hfn : after? "fn ".toList l.content = none) (hf : b.finish = .ok f) :
      LineStep symbols l s d s { d with functions := d.functions ++ [f], current := none }
  /-- A label or an instruction. -/
  | inside {b b' : Body} (hd : d.current = some b) (hfn : after? "fn ".toList l.content = none)
      (hb : b.readLine symbols l = .ok b') : LineStep symbols l s d s { d with current := some b' }
  | layout {layout : Option String} (hd : d.current = none)
      (hfn : after? "fn ".toList l.content = none) : LineStep symbols l s d s { d with layout }
  | global {rest : List Char} {g : Global} (hd : d.current = none)
      (hfn : after? "fn ".toList l.content = none) (hg : global rest = .ok g)
      (hident : isIdent (globalName rest) = true) (hnew : String.ofList (globalName rest) ∉ s.globals) :
      LineStep symbols l s d { s with globals := s.globals ++ [String.ofList (globalName rest)] }
        { d with globals := d.globals ++ [g] }
  /-- The first line of a function. -/
  | function {rest name : List Char} (hd : d.current = none)
      (hrest : after? "fn ".toList l.content = some rest) (hname : before? '\x7b' rest = some name)
      (hident : isIdent (functionName rest) = true)
      (hnew : String.ofList (functionName rest) ∉ s.functions) :
      LineStep symbols l s d { s with functions := s.functions ++ [String.ofList (functionName rest)] }
        { d with current := some ⟨String.ofList (trim name), [], [], []⟩ }

/-- **Both passes see a line in the same way.** -/
theorem lineStep_of_readLine (hs : s.addLine l.content = .ok s') (hd : d.readLine symbols l = .ok d') :
    LineStep symbols l s d s' d' := by
  rcases Draft.readLine_cases hd with
    ⟨b, f, hcurrent, hbrace, hf, rfl⟩ | ⟨b, b', hcurrent, hb, rfl⟩ | ⟨hcurrent, hd⟩
  · have hfn : after? "fn ".toList l.content = none := by rw [hbrace]; rfl
    rw [addLine_nothing hs (by rw [hbrace]; rfl) hfn]
    exact .closing hcurrent hfn hf
  · have hglobal : after? "global ".toList l.content = none := by
      rw [Option.eq_none_iff_forall_ne_some]
      intro rest hrest
      have hident := (addLine_global hs hrest).1
      rw [isIdent_globalName_of_readLine hb hrest] at hident
      cases hident
    have hfn : after? "fn ".toList l.content = none := by
      rw [Option.eq_none_iff_forall_ne_some]
      intro rest hrest
      have hident := (addLine_function hs hglobal hrest).1
      rw [isIdent_functionName_of_readLine hb hrest] at hident
      cases hident
    rw [addLine_nothing hs hglobal hfn]
    exact .inside hcurrent hfn hb
  · rcases Draft.readDeclaration_cases hd with
      ⟨rest, layout, hrest, rfl⟩ | ⟨rest, g, hrest, hg, rfl⟩ | ⟨rest, name, hnone, hrest, hname, rfl⟩
    · have hother : ∀ q qs, q ≠ 't' → after? (q :: qs) l.content = none := fun q qs hne =>
        after?_eq_none (p := 't') hrest hne
      have hfn := hother 'f' ['n', ' '] (by decide)
      rw [addLine_nothing hs (hother 'g' _ (by decide)) hfn]
      exact .layout hcurrent hfn
    · obtain ⟨hident, hnew, rfl⟩ := addLine_global hs hrest
      have hfn : after? ('f' :: ['n', ' ']) l.content = none :=
        after?_eq_none (p := 'g') hrest (by decide)
      exact .global hcurrent hfn hg hident hnew
    · obtain ⟨hident, hnew, rfl⟩ := addLine_function hs hnone hrest
      exact .function hcurrent hrest hname hident hnew

/-- What each line preserves holds behind the last; `P` may speak of the lines so far. -/
theorem LineStep.run {P : List Line → Symbols → Draft → Prop}
    (hP : ∀ done l s d s' d', P done s d → LineStep symbols l s d s' d' → P (done ++ [l]) s' d')
    {ls : List Line} (h : P [] s d)
    (hs : ls.foldlM (fun s l => atLine l.number (s.addLine l.content)) s = .ok s')
    (hd : ls.foldlM (Draft.readLine symbols) d = .ok d') : P ls s' d' := by
  suffices hrest : ∀ done, P done s d → P (done ++ ls) s' d' from hrest [] h
  clear h
  induction ls generalizing s d with
  | nil =>
      intro done h
      cases hs
      cases hd
      rwa [List.append_nil]
  | cons l ls ih =>
      intro done h
      rw [List.foldlM_cons] at hs hd
      obtain ⟨s₁, hs₁, hs⟩ := exists_of_bind hs
      obtain ⟨d₁, hd₁, hd⟩ := exists_of_bind hd
      have hstep := hP done l s d s₁ d₁ h (lineStep_of_readLine (of_atLine hs₁) hd₁)
      have hrest := ih hs hd (done ++ [l]) hstep
      rwa [List.append_assoc, List.singleton_append] at hrest

/-! #### Counting declarations -/

/-- The globals and functions that the draft has are as many as the names collected so far. -/
structure Draft.Counted (d : Draft) (s : Symbols) : Prop where
  globals : s.globals.length = d.globals.length
  functions : s.functions.length = d.functions.length + d.current.toList.length

/-- **A line adds as much in the second pass as in the first.** -/
theorem Draft.Counted.lineStep (h : d.Counted s) (hl : LineStep symbols l s d s' d') : d'.Counted s' := by
  have hfunctions := h.functions
  cases hl with
  | closing hd =>
      rw [hd] at hfunctions
      exact ⟨h.globals, by rw [hfunctions]; simp⟩
  | inside hd =>
      rw [hd] at hfunctions
      exact ⟨h.globals, hfunctions⟩
  | layout hd => exact ⟨h.globals, h.functions⟩
  | global hd => exact ⟨by simp [h.globals], h.functions⟩
  | function hd =>
      rw [hd] at hfunctions
      exact ⟨h.globals, by rw [List.length_append, hfunctions]; rfl⟩

/-! #### All indices of a draft -/

/-- The indices in the functions of a draft exist. -/
structure Draft.Fits (symbols : Symbols) (d : Draft) : Prop where
  functions : ∀ f ∈ d.functions, f.InRange symbols.globals.length symbols.functions.length
  current : ∀ b, d.current = some b → b.Fits symbols

theorem Draft.Fits.readLine (h : d.Fits symbols) (hd : d.readLine symbols l = .ok d') :
    d'.Fits symbols := by
  rcases Draft.readLine_cases hd with
    ⟨b, f, hcurrent, -, hf, rfl⟩ | ⟨b, b', hcurrent, hb, rfl⟩ | ⟨hcurrent, hd⟩
  · refine ⟨fun g hg => ?_, by simp⟩
    rcases List.mem_append.mp hg with hg | hg
    · exact h.functions g hg
    · rw [List.mem_singleton.mp hg]
      exact (h.current b hcurrent).finish hf
  · refine ⟨h.functions, fun b'' hb'' => ?_⟩
    cases hb''
    exact (h.current b hcurrent).readLine hb
  · rcases Draft.readDeclaration_cases hd with
      ⟨rest, layout, -, rfl⟩ | ⟨rest, g, -, -, rfl⟩ | ⟨rest, name, -, -, -, rfl⟩
    · exact ⟨h.functions, h.current⟩
    · exact ⟨h.functions, h.current⟩
    · refine ⟨h.functions, fun b hb => ?_⟩
      cases hb
      exact ⟨by simp, by simp⟩

theorem Draft.finish_eq_ok {count : Nat} {p : Program} (h : d.finish count = .ok p) :
    d.current = none ∧ p.globals = d.globals ∧ p.functions = d.functions := by
  unfold Draft.finish at h
  split at h
  · cases h
  · rename_i hcurrent
    cases h
    exact ⟨hcurrent, rfl, rfl⟩

end Reader

open Reader in
/-- **In every program that can be read all indices exist**: registers, globals, functions, and the
positions that are jumped to. -/
theorem Program.inRange_read {text : String} {p : Program} (h : Program.read text = .ok p) :
    p.InRange := by
  obtain ⟨symbols, hsymbols, h⟩ := exists_of_bind h
  obtain ⟨d, hdraft, h⟩ := exists_of_bind h
  have hcounted : d.Counted symbols := LineStep.run (P := fun _ s d => d.Counted s)
    (fun _ _ _ _ _ _ h hl => h.lineStep hl) ⟨rfl, rfl⟩ hsymbols hdraft
  have hfits : d.Fits symbols := foldlM_invariant (fun _ _ _ hd hd' => hd.readLine hd') hdraft
    ⟨by simp [Draft.empty], by simp [Draft.empty]⟩
  obtain ⟨hcurrent, hglobals, hfunctions⟩ := Draft.finish_eq_ok h
  have hcount := hcounted.functions
  rw [hcurrent] at hcount
  intro f hf
  rw [hfunctions] at hf ⊢
  have hf := hfits.functions f hf
  rw [hcounted.globals, hcount] at hf
  rw [hglobals]
  exact hf

end Interleave
