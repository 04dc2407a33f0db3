import Interleave.Proofs.Program.Declared
import Mathlib.Data.List.GetD

/-! # Instructions in writing

An instruction is written as its mnemonic and its operands, with the `Names` that stand for registers,
globals, functions and positions.  In writing there are few characters (`inLine`), none of which is used
for anything else, and no blanks within operands (`Token`).

Registers are numbered by their first occurrence.  So if the registers of an instruction are numbered in
order behind those of the instructions before it (`InOrder`), reading what is written gives back the
instruction, and the registers that are known then are the first ones still
(`Names.Sound.gives_instruction`). -/

namespace Interleave

open Text

/-- The word that an instruction begins with. -/
def Instr.mnemonic {τ : Type} : Instr τ → String
  | .mov .. => "mov"
  | .bin op .. => op.mnemonic
  | .load .. => "load"
  | .store .. => "store"
  | .addr .. => "addr"
  | .fence => "fence"
  | .spawn .. => "spawn"
  | .join _ => "join"
  | .lock _ => "lock"
  | .unlock _ => "unlock"
  | .assert _ => "assert"
  | .jump _ => "jmp"
  | .branch _ true _ => "brz"
  | .branch _ false _ => "brnz"
  | .call .. => "call"
  | .ret => "ret"

/-- What is written for the indices in the body of a function. -/
structure Names where
  globals : List String
  functions : List String
  registers : List String
  /-- The label of a position that is jumped to. -/
  labels : Nat → String

/-- Operands one after the other. -/
def listed (args : List (List Char)) : List Char := [',', ' '].intercalate args

namespace Names

variable (ns : Names)

/-- A register in writing. -/
def register (r : Reg) : List Char := '%' :: (ns.registers.getD r "").toList

/-- A global in writing. -/
def cell (g : Nat) : List Char := '@' :: (ns.globals.getD g "").toList

/-- A function in writing. -/
def function (f : Nat) : List Char := (ns.functions.getD f "").toList

/-- The target of a jump in writing. -/
def label (pc : Nat) : List Char := (ns.labels pc).toList

/-- An operand in writing. -/
def operand : Operand → List Char
  | .reg r => ns.register r
  | .imm v => (Decimal.write v).toList

/-- A memory operand in writing. -/
def location : Location → List Char
  | .global g => ns.cell g
  | .indirect r => '[' :: (ns.register r ++ [']'])

/-- The operands of an instruction in writing; a call has its own form. -/
def operands : Instr Nat → List (List Char)
  | .mov d v => [ns.register d, ns.operand v]
  | .bin _ d l r => [ns.register d, ns.operand l, ns.operand r]
  | .load d l => [ns.register d, ns.location l]
  | .store l v => [ns.location l, ns.operand v]
  | .addr d g => [ns.register d, ns.cell g]
  | .spawn d f => [ns.register d, ns.function f]
  | .join v | .assert v => [ns.operand v]
  | .lock l | .unlock l => [ns.location l]
  | .jump t => [ns.label t]
  | .branch c _ t => [ns.operand c, ns.label t]
  | .fence | .call _ _ | .ret => []

/-- What a call applies to, in writing. -/
def callee (name : String) (args : List Operand) : List Char :=
  '@' :: (name.toList ++ '(' :: (listed (args.map ns.operand) ++ [')']))

/-- An instruction in writing. -/
def instruction (i : Instr Nat) : List Char :=
  i.mnemonic.toList ++ match i with
    | .fence | .ret => []
    | .call name args => ' ' :: ns.callee name args
    | i => ' ' :: listed (ns.operands i)

end Names

/-! ### Characters -/

/-- The characters of operands. -/
def inToken (c : Char) : Bool := c.isAlphanum || "_.%@[]-".toList.contains c

/-- The characters of instructions. -/
def inLine (c : Char) : Bool := inToken c || " ,()".toList.contains c

/-- What an operand looks like. -/
structure Token (s : List Char) : Prop where
  ne_nil : s ≠ []
  plain : ∀ c ∈ s, inToken c = true

variable {c : Char} {s t : List Char} {args : List (List Char)}

theorem isBlank_of_inToken (h : inToken c = true) : isBlank c = false := by
  have hrange : 0x20 < c.toNat ∧ c.toNat < 0x80 := by
    rw [inToken, Bool.or_eq_true] at h
    rcases h with h | h
    · delta Char.isAlphanum Char.isAlpha Char.isUpper Char.isLower at h
      simp only [Char.isDigit, Bool.or_eq_true, Bool.and_eq_true, decide_eq_true_eq, ge_iff_le,
        UInt32.le_iff_toNat_le] at h
      have hval : c.val.toNat = c.toNat := rfl
      have hchars : 'A'.val.toNat = 65 ∧ 'Z'.val.toNat = 90 ∧ 'a'.val.toNat = 97 ∧ 'z'.val.toNat = 122 ∧
        '0'.val.toNat = 48 ∧ '9'.val.toNat = 57 := by decide
      omega
    · have hall : "_.%@[]-".toList.all (fun c => decide (0x20 < c.toNat ∧ c.toNat < 0x80)) = true := by
        decide
      rw [List.contains_iff_mem] at h
      exact of_decide_eq_true (List.all_eq_true.mp hall c h)
  simp only [isBlank, Bool.or_eq_false_iff, Bool.and_eq_false_iff, decide_eq_false_iff_not,
    beq_eq_false_iff_ne]
  omega

theorem inLine_of_inToken (h : inToken c = true) : inLine c = true := by rw [inLine, h, Bool.true_or]

theorem token_of_all (hne : s ≠ []) (h : s.all inToken = true) : Token s := ⟨hne, List.all_eq_true.mp h⟩

theorem Token.trimmed (h : Token s) : Trimmed s :=
  trimmed_of_forall fun c hc => isBlank_of_inToken (h.plain c hc)

theorem Token.notMem (h : Token s) (hc : inToken c = false) : c ∉ s := fun hmem => by
  rw [h.plain c hmem] at hc
  cases hc

theorem Token.cons (h : ∀ c ∈ s, inToken c = true) (hc : inToken c = true) : Token (c :: s) :=
  ⟨List.cons_ne_nil c s, List.forall_mem_cons.mpr ⟨hc, h⟩⟩

theorem token_of_isIdent (h : Reader.isIdent s = true) : Token s := by
  refine ⟨?_, fun c hc => ?_⟩
  · rintro rfl
    cases h
  · by_contra hplain
    have hother : (c.isAlphanum || c == '_' || c == '.') = false := by
      simp only [inToken, Bool.or_eq_true, List.contains_iff_mem, not_or] at hplain
      obtain ⟨halphanum, hmem⟩ := hplain
      simp only [Bool.or_eq_false_iff, beq_eq_false_iff_ne]
      exact ⟨⟨by simpa using halphanum, by rintro rfl; exact hmem (by decide)⟩,
        by rintro rfl; exact hmem (by decide)⟩
    rw [Reader.isIdent_eq_false hc hother] at h
    cases h

theorem token_write (v : Int64) : Token (Decimal.write v).toList := by
  have hdigits : ∀ n, ∀ c ∈ Nat.toDigits 10 n, inToken c = true := by
    intro n c hc
    have hdigit : c.isDigit = true := Nat.isDigit_of_mem_toDigits (by decide) (by decide) hc
    simp [inToken, Char.isAlphanum, hdigit]
  rw [Decimal.write_eq]
  split
  · exact ⟨Nat.toDigits_ne_nil, hdigits _⟩
  · exact Token.cons (hdigits _) (by decide)

theorem listed_cons_cons (s t : List Char) (args : List (List Char)) :
    listed (s :: t :: args) = s ++ [',', ' '] ++ listed (t :: args) := by
  simp [listed, List.intercalate]

theorem listed_singleton (s : List Char) : listed [s] = s := by simp [listed, List.intercalate]

theorem listed_ne_nil (h : ∀ s ∈ args, Token s) (hne : args ≠ []) : listed args ≠ [] := by
  cases args with
  | nil => exact absurd rfl hne
  | cons s args =>
      have hs := (h s List.mem_cons_self).ne_nil
      cases args with
      | nil => rwa [listed_singleton]
      | cons t args =>
          rw [listed_cons_cons]
          simp [hs]

theorem trimmed_listed (h : ∀ s ∈ args, Token s) : Trimmed (listed args) := by
  induction args with
  | nil => exact ⟨by simp [listed], by simp [listed]⟩
  | cons s args ih =>
      have hs := h s List.mem_cons_self
      have hargs : ∀ s ∈ args, Token s := fun t ht => h t (List.mem_cons_of_mem _ ht)
      cases args with
      | nil =>
          rw [listed_singleton]
          exact hs.trimmed
      | cons t args =>
          rw [listed_cons_cons]
          exact hs.trimmed.append (ih hargs) hs.ne_nil (listed_ne_nil hargs (by simp)) _

/-- **Operands that are listed come out again.** -/
theorem commaSeparated_listed (h : ∀ s ∈ args, Token s) : Reader.commaSeparated (listed args) = args := by
  cases args with
  | nil => rfl
  | cons s args =>
      have hne := listed_ne_nil h (by simp)
      rw [Reader.commaSeparated, if_neg (by simpa using hne)]
      induction args generalizing s with
      | nil =>
          have hs := h s List.mem_cons_self
          rw [listed_singleton, fields_of_notMem (hs.notMem (by decide)), List.map_singleton,
            hs.trimmed.trim_eq]
      | cons t args ih =>
          have hs := h s List.mem_cons_self
          have hargs : ∀ u ∈ t :: args, Token u := fun u hu => h u (List.mem_cons_of_mem _ hu)
          have hjoin : listed (s :: t :: args) = s ++ ',' :: ' ' :: listed (t :: args) := by
            rw [listed_cons_cons]
            simp
          rw [hjoin, fields_append (hs.notMem (by decide)), List.map_cons, hs.trimmed.trim_eq,
            map_trim_fields_cons (by decide) (by decide), ih t hargs (listed_ne_nil hargs (by simp))]

theorem inLine_listed (h : ∀ s ∈ args, Token s) : ∀ c ∈ listed args, inLine c = true := by
  induction args with
  | nil => simp [listed]
  | cons s args ih =>
      have hs : ∀ c ∈ s, inLine c = true := fun c hc =>
        inLine_of_inToken ((h s List.mem_cons_self).plain c hc)
      have hargs : ∀ s ∈ args, Token s := fun t ht => h t (List.mem_cons_of_mem _ ht)
      cases args with
      | nil =>
          rw [listed_singleton]
          exact hs
      | cons t args =>
          have hcomma : ∀ c ∈ [',', ' '], inLine c = true := List.all_eq_true.mp (by decide)
          rw [listed_cons_cons]
          intro c hc
          rcases List.mem_append.mp hc with hc | hc
          · rcases List.mem_append.mp hc with hc | hc
            · exact hs c hc
            · exact hcomma c hc
          · exact ih hargs c hc

/-- What an instruction looks like. -/
structure Phrase (s : List Char) : Prop where
  ne_nil : s ≠ []
  trimmed : Trimmed s
  plain : ∀ c ∈ s, inLine c = true

theorem Token.phrase (h : Token s) : Phrase s :=
  ⟨h.ne_nil, h.trimmed, fun c hc => inLine_of_inToken (h.plain c hc)⟩

theorem phrase_listed (h : ∀ s ∈ args, Token s) (hne : args ≠ []) : Phrase (listed args) :=
  ⟨listed_ne_nil h hne, trimmed_listed h, inLine_listed h⟩

theorem Phrase.append (hs : Phrase s) (ht : Phrase t) : Phrase (s ++ ' ' :: t) := by
  have hblank : inLine ' ' = true := by decide
  refine ⟨by simp, ?_, ?_⟩
  · have htrimmed := hs.trimmed.append ht.trimmed hs.ne_nil ht.ne_nil [' ']
    simpa using htrimmed
  · exact List.forall_mem_append.mpr ⟨hs.plain, List.forall_mem_cons.mpr ⟨hblank, ht.plain⟩⟩

/-! ### Registers in order -/

/-- If `m` registers are known at first and those of the list are met in turn, each is known already or
the next one, and `m'` are known behind. -/
inductive InOrder : Nat → List Nat → Nat → Prop where
  | nil (m : Nat) : InOrder m [] m
  | known {m m' r : Nat} {rs : List Nat} (hr : r < m) (h : InOrder m rs m') :
      InOrder m (r :: rs) m'
  | new {m m' : Nat} {rs : List Nat} (h : InOrder (m + 1) rs m') : InOrder m (m :: rs) m'

variable {m m' r : Nat} {rs rs' : List Nat}

theorem InOrder.le (h : InOrder m rs m') : m ≤ m' := by
  induction h with
  | nil m => exact le_rfl
  | known _ _ ih => exact ih
  | new _ ih => omega

theorem InOrder.lt (h : InOrder m rs m') : ∀ r ∈ rs, r < m' := by
  induction h with
  | nil m => simp
  | known hr h ih => exact List.forall_mem_cons.mpr ⟨hr.trans_le h.le, ih⟩
  | new h ih => exact List.forall_mem_cons.mpr ⟨h.le, ih⟩

theorem inOrder_append : InOrder m (rs ++ rs') m' ↔ ∃ k, InOrder m rs k ∧ InOrder k rs' m' := by
  induction rs generalizing m with
  | nil =>
      constructor
      · intro h
        exact ⟨m, .nil m, h⟩
      · rintro ⟨k, hk, h⟩
        cases hk
        exact h
  | cons r rs ih =>
      rw [List.cons_append]
      constructor
      · intro h
        cases h with
        | known hr h =>
            obtain ⟨k, hk, h⟩ := ih.mp h
            exact ⟨k, .known hr hk, h⟩
        | new h =>
            obtain ⟨k, hk, h⟩ := ih.mp h
            exact ⟨k, .new hk, h⟩
      · rintro ⟨k, hk, h⟩
        cases hk with
        | known hr hk => exact .known hr (ih.mpr ⟨k, hk, h⟩)
        | new hk => exact .new (ih.mpr ⟨k, hk, h⟩)

theorem inOrder_cons : InOrder m (r :: rs) m' ↔ ∃ k, InOrder m [r] k ∧ InOrder k rs m' := by
  rw [← List.singleton_append, inOrder_append]

/-- **Registers that are numbered by first occurrence are met in order.** -/
theorem inOrder_of_eraseDups {n : Nat} (h : (rs ++ rs').eraseDups = List.range n)
    (hm : rs.eraseDups = List.range m) : InOrder m rs' n := by
  induction rs' generalizing rs m with
  | nil =>
      rw [List.append_nil, hm] at h
      obtain rfl : m = n := by simpa using congrArg List.length h
      exact .nil m
  | cons r rs' ih =>
      have hassoc : rs ++ r :: rs' = (rs ++ [r]) ++ rs' := by simp
      rw [hassoc] at h
      have hmem : r ∈ rs ↔ r < m := by rw [← List.mem_eraseDups, hm, List.mem_range]
      by_cases hr : r < m
      · have hsame : (rs ++ [r]).eraseDups = List.range m := by
          rw [List.eraseDups_append, hm]
          simp [List.removeAll, hmem.mpr hr]
        exact .known hr (ih h hsame)
      · have hnew : (rs ++ [r]).eraseDups = List.range m ++ [r] := by
          rw [List.eraseDups_append, hm]
          simp [List.removeAll, mt hmem.mp hr, List.eraseDups_cons]
        -- what has been met is the start of what is met in all, so `r` is the next one
        obtain rfl : r = m := by
          rw [List.eraseDups_append, hnew] at h
          have hget := congrArg (fun l => l[m]?) h
          have hlt : m < n := by
            have hlength := congrArg List.length h
            simp only [List.length_append, List.length_range, List.length_singleton] at hlength
            omega
          simpa [List.getElem?_append, List.getElem?_range hlt] using hget
        exact .new (ih h (by rw [hnew, List.range_succ]))

/-! ### Reading back -/

/-- The instruction with other targets. -/
def Instr.mapTargets {τ υ : Type} (f : τ → υ) : Instr τ → Instr υ
  | .mov d v => .mov d v
  | .bin op d l r => .bin op d l r
  | .load d l => .load d l
  | .store l v => .store l v
  | .addr d g => .addr d g
  | .fence => .fence
  | .spawn d f => .spawn d f
  | .join v => .join v
  | .lock l => .lock l
  | .unlock l => .unlock l
  | .assert v => .assert v
  | .jump t => .jump (f t)
  | .branch c z t => .branch c z (f t)
  | .call name args => .call name args
  | .ret => .ret

namespace Names

open Reader

/-- The names are identifiers, and none stands for two things. -/
structure Sound (ns : Names) : Prop where
  globals : Distinct ns.globals
  functions : Distinct ns.functions
  registers : Distinct ns.registers

/-- The names that an instruction needs exist. -/
structure Covers (ns : Names) (i : Instr Nat) : Prop where
  globals : ∀ g ∈ i.globals, g < ns.globals.length
  functions : ∀ f ∈ i.functions, f < ns.functions.length
  registers : ∀ r ∈ i.registers, r < ns.registers.length
  targets : ∀ t ∈ i.targets, isIdent (ns.labels t).toList = true
  callee : ∀ name args, i = .call name args → isIdent name.toList = true

/-- The first pass over a text in which these names are declared. -/
def symbols (ns : Names) : Symbols := ⟨ns.globals, ns.functions⟩

/-- When the first `m` registers are known, the computation gives `a` and the first `m'` are known. -/
def Gives {α : Type} (ns : Names) (m : Nat) (x : InBody α) (a : α) (m' : Nat) : Prop :=
  x (ns.registers.take m) = .ok (a, ns.registers.take m')

section

variable {ns : Names} {α β : Type} {x : InBody α} {f : α → InBody β} {a : α} {b : β} {k : Nat}

theorem gives_pure : ns.Gives m (pure a) a m := rfl

theorem gives_lift {y : Except ReadError α} (h : y = .ok a) : ns.Gives m (liftM y) a m := by
  subst h
  rfl

theorem Gives.bind (hx : ns.Gives m x a k) (hf : ns.Gives k (f a) b m') : ns.Gives m (x >>= f) b m' := by
  have hbind : (x >>= f) (ns.registers.take m) =
      x (ns.registers.take m) >>= fun y => f y.1 y.2 := rfl
  rw [Gives, hbind, hx]
  exact hf

end

variable {ns : Names} {i : Instr Nat}

theorem getD_mem {l : List String} {g : Nat} (h : g < l.length) : l.getD g "" ∈ l := by
  rw [List.getD_eq_getElem _ _ h]
  exact List.getElem_mem h

theorem idxOf?_getD {l : List String} (hl : Distinct l) {g : Nat} (h : g < l.length) :
    l.idxOf? (l.getD g "") = some g := by
  rw [hl.indexes.maps, List.getD_eq_getElem _ _ h, List.getElem?_eq_getElem h]

/-- **A register** that is known is found, and the next one gets its number. -/
theorem Sound.gives_register (hns : ns.Sound) (h : InOrder m [r] m') (hm' : m' ≤ ns.registers.length) :
    ns.Gives m (Reader.register (ns.register r)) r m' := by
  have hr : r < ns.registers.length := by
    cases h with
    | known hr h =>
        have := h.le
        omega
    | new h =>
        have := h.le
        omega
  have hident := hns.registers.ident _ (getD_mem hr)
  have hread : Reader.register (ns.register r) = registerNumber (ns.registers.getD r "") := by
    rw [register, Reader.register, if_pos hident, String.ofList_toList]
  rw [hread]
  cases h with
  | known hrm h =>
      cases h
      have hlength : r < (ns.registers.take m).length := by
        rw [List.length_take]
        omega
      have hget : ns.registers.getD r "" = (ns.registers.take m).getD r "" := by
        rw [List.getD_eq_getElem _ _ hr, List.getD_eq_getElem _ _ hlength, List.getElem_take]
      have hidx := idxOf?_getD (hns.registers.take m) hlength
      rw [Gives, registerNumber, hget, hidx]
  | new h =>
      cases h
      have hnone : (ns.registers.take m).idxOf? (ns.registers.getD m "") = none := by
        rw [List.idxOf?_eq_none_iff]
        intro hmem
        obtain ⟨j, hj, hget⟩ := List.mem_take_iff_getElem.mp hmem
        rw [List.getD_eq_getElem _ _ hr] at hget
        have := (hns.registers.nodup.getElem_inj_iff).mp hget
        omega
      have hlength : (ns.registers.take m).length = m := by
        rw [List.length_take]
        omega
      have htake : ns.registers.take (m + 1) = ns.registers.take m ++ [ns.registers.getD m ""] := by
        rw [List.getD_eq_getElem _ _ hr, List.take_append_getElem]
      rw [Gives, registerNumber, hnone, hlength, htake]

theorem operand_of_head (h : s.head? ≠ some '%') :
    Reader.operand s = do return .imm (← integer s) := by
  unfold Reader.operand
  split
  · exact absurd rfl h
  · rfl

theorem Sound.gives_operand (hns : ns.Sound) {v : Operand} (h : InOrder m v.registers m')
    (hm' : m' ≤ ns.registers.length) : ns.Gives m (Reader.operand (ns.operand v)) v m' := by
  cases v with
  | reg r => exact (hns.gives_register h hm').bind gives_pure
  | imm v =>
      cases h
      have hhead : (Decimal.write v).toList.head? ≠ some '%' := by
        rw [Decimal.write_eq]
        split
        · intro hhead
          have hdigit := Nat.isDigit_of_mem_toDigits (by decide) (by decide) (List.mem_of_mem_head? hhead)
          revert hdigit
          decide
        · simp
      rw [operand, operand_of_head hhead]
      refine (gives_lift ?_).bind gives_pure
      rw [integer, Decimal.read?_write]

theorem Sound.globalIndex_cell (hns : ns.Sound) {g : Nat} (hg : g < ns.globals.length) :
    globalIndex ns.symbols (ns.cell g) = .ok g := by
  simp only [globalIndex, cell, symbols, String.ofList_toList, idxOf?_getD hns.globals hg]

theorem Sound.functionIndex_function (hns : ns.Sound) {f : Nat} (hf : f < ns.functions.length) :
    functionIndex ns.symbols (ns.function f) = .ok f := by
  simp only [functionIndex, function, symbols, String.ofList_toList, idxOf?_getD hns.functions hf]

theorem target_label {t : Nat} (h : isIdent (ns.labels t).toList = true) (line : Nat) :
    target line (ns.label t) = .ok ⟨ns.labels t, line⟩ := by
  rw [target, label, if_pos h, String.ofList_toList]

/-! #### Tokens -/

theorem Sound.token_register (hns : ns.Sound) (hr : r < ns.registers.length) : Token (ns.register r) :=
  Token.cons (token_of_isIdent (hns.registers.ident _ (getD_mem hr))).plain (by decide)

theorem Sound.token_operand (hns : ns.Sound) {v : Operand}
    (h : ∀ r ∈ v.registers, r < ns.registers.length) : Token (ns.operand v) := by
  cases v with
  | reg r => exact hns.token_register (h r (by simp [Operand.registers]))
  | imm v => exact token_write v

theorem Sound.tokens_operands (hns : ns.Sound) {vs : List Operand}
    (h : ∀ v ∈ vs, ∀ r ∈ v.registers, r < ns.registers.length) : ∀ s ∈ vs.map ns.operand, Token s := by
  intro s hs
  obtain ⟨v, hv, rfl⟩ := List.mem_map.mp hs
  exact hns.token_operand (h v hv)

theorem Sound.token_cell (hns : ns.Sound) {g : Nat} (hg : g < ns.globals.length) : Token (ns.cell g) :=
  Token.cons (token_of_isIdent (hns.globals.ident _ (getD_mem hg))).plain (by decide)

theorem Sound.token_location (hns : ns.Sound) {l : Location}
    (hr : ∀ r ∈ l.registers, r < ns.registers.length) (hg : ∀ g ∈ l.globals, g < ns.globals.length) :
    Token (ns.location l) := by
  cases l with
  | global g => exact hns.token_cell (hg g (by simp [Location.globals]))
  | indirect r =>
      have hregister := hns.token_register (hr r (by simp [Location.registers]))
      refine Token.cons (fun c hc => ?_) (by decide)
      rcases List.mem_append.mp hc with hc | hc
      · exact hregister.plain c hc
      · rw [List.mem_singleton.mp hc]
        decide

theorem Sound.gives_location (hns : ns.Sound) {l : Location} (h : InOrder m l.registers m')
    (hm' : m' ≤ ns.registers.length) (hg : ∀ g ∈ l.globals, g < ns.globals.length) :
    ns.Gives m (Reader.location ns.symbols (ns.location l)) l m' := by
  cases l with
  | global g =>
      cases h
      have hread : Reader.location ns.symbols (ns.cell g) =
          do return .global (← globalIndex ns.symbols (ns.cell g)) := rfl
      rw [location, hread]
      exact (gives_lift (hns.globalIndex_cell (hg g (by simp [Location.globals])))).bind gives_pure
  | indirect r =>
      have hr : r < ns.registers.length := (h.lt r (by simp [Location.registers])).trans_le hm'
      have hinner : (after? ['['] (ns.location (.indirect r))).bind (before? ']') =
          some (ns.register r) := by
        have hopen : after? ['['] (ns.location (.indirect r)) = some (ns.register r ++ [']']) :=
          after?_append ['['] _
        rw [hopen, Option.bind_some, before?_append]
      unfold Reader.location
      rw [hinner]
      dsimp only
      rw [(hns.token_register hr).trimmed.trim_eq]
      exact (hns.gives_register h hm').bind gives_pure

/-! #### Instructions -/

theorem commaSeparated_trim (h : ∀ s ∈ args, Token s) :
    commaSeparated (trim (' ' :: listed args)) = args := by
  rw [trim_cons (by decide), (trimmed_listed h).trim_eq, commaSeparated_listed h]

theorem Sound.gives_operands (hns : ns.Sound) {vs : List Operand}
    (h : InOrder m (vs.flatMap Operand.registers) m') (hm' : m' ≤ ns.registers.length) :
    ns.Gives m ((vs.map ns.operand).mapM Reader.operand) vs m' := by
  induction vs generalizing m with
  | nil =>
      cases h
      exact gives_pure
  | cons v vs ih =>
      rw [List.flatMap_cons] at h
      obtain ⟨k, hv, hvs⟩ := inOrder_append.mp h
      rw [List.map_cons, List.mapM_cons]
      exact (hns.gives_operand hv (hvs.le.trans hm')).bind ((ih hvs).bind gives_pure)

/-- **A call**: the name of the builtin and its arguments. -/
theorem Sound.gives_callee (hns : ns.Sound) {name : String} {vs : List Operand}
    (hname : isIdent name.toList = true) (h : InOrder m (vs.flatMap Operand.registers) m')
    (hm' : m' ≤ ns.registers.length) :
    ns.Gives m (Reader.callee (ns.callee name vs)) (.call name vs) m' := by
  have htokens := hns.tokens_operands fun v hv r hr =>
    (h.lt r (List.mem_flatMap.mpr ⟨v, hv, hr⟩)).trans_le hm'
  have hident := token_of_isIdent hname
  have hclosing : before? ')' (trimEnd (listed (vs.map ns.operand) ++ [')'])) =
      some (listed (vs.map ns.operand)) := by
    have hlast : trimEnd (listed (vs.map ns.operand) ++ [')']) = listed (vs.map ns.operand) ++ [')'] :=
      dropEndWhile_eq_self (by simp [isBlank])
    rw [hlast, before?_append]
  simp only [Names.callee, Reader.callee,
    cut_append (hident.notMem (show inToken '(' = false by decide)), hclosing, hident.trimmed.trim_eq, hname,
    if_true, String.ofList_toList, (trimmed_listed htokens).trim_eq, commaSeparated_listed htokens]
  exact (hns.gives_operands h hm').bind gives_pure

theorem Covers.token_label (hi : ns.Covers i) {t : Nat} (ht : t ∈ i.targets) : Token (ns.label t) :=
  token_of_isIdent (hi.targets t ht)

/-- **Operands are tokens.** -/
theorem Sound.tokens (hns : ns.Sound) (hi : ns.Covers i) : ∀ s ∈ ns.operands i, Token s := by
  have hregisters := hi.registers
  cases i with
  | mov d v =>
      obtain ⟨hd, hv⟩ := List.forall_mem_cons.mp hregisters
      simp [operands, hns.token_register hd, hns.token_operand hv]
  | bin op d l r =>
      obtain ⟨hd, hlr⟩ := List.forall_mem_cons.mp hregisters
      obtain ⟨hl, hr⟩ := List.forall_mem_append.mp hlr
      simp [operands, hns.token_register hd, hns.token_operand hl, hns.token_operand hr]
  | load d l =>
      obtain ⟨hd, hl⟩ := List.forall_mem_cons.mp hregisters
      simp [operands, hns.token_register hd, hns.token_location hl hi.globals]
  | store l v =>
      obtain ⟨hl, hv⟩ := List.forall_mem_append.mp hregisters
      simp [operands, hns.token_location hl hi.globals, hns.token_operand hv]
  | addr d g =>
      have hg := hi.globals g (by simp [Instr.globals])
      simp [operands, hns.token_register (hregisters d (by simp [Instr.registers])), hns.token_cell hg]
  | spawn d f =>
      have hf := hi.functions f (by simp [Instr.functions])
      have htoken : Token (ns.function f) := token_of_isIdent (hns.functions.ident _ (getD_mem hf))
      simp [operands, hns.token_register (hregisters d (by simp [Instr.registers])), htoken]
  | join v | assert v => simp [operands, hns.token_operand hregisters]
  | lock l | unlock l => simp [operands, hns.token_location hregisters hi.globals]
  | jump t => simp [operands, hi.token_label (t := t) (by simp [Instr.targets])]
  | branch v z t =>
      simp [operands, hns.token_operand hregisters, hi.token_label (t := t) (by simp [Instr.targets])]
  | fence | call name vs | ret => simp [operands]

theorem trimmed_callee (name : String) (vs : List Operand) : Trimmed (ns.callee name vs) := by
  refine ⟨by simp [Names.callee, isBlank], fun c hc => ?_⟩
  rw [Names.callee, ← List.cons_append, List.getLast?_append_of_ne_nil _ (by simp), ← List.cons_append,
    List.getLast?_append_of_ne_nil _ (by simp)] at hc
  obtain rfl : ')' = c := by simpa using hc
  decide

theorem gives_twoOperands (op : String) {a b : List Char} (h : ∀ s ∈ [a, b], Token s) :
    ns.Gives m (liftM (twoOperands op (commaSeparated (trim (' ' :: listed [a, b]))))) (a, b) m := by
  refine gives_lift ?_
  rw [commaSeparated_trim h]
  rfl

theorem gives_oneOperand (op : String) {a : List Char} (h : ∀ s ∈ [a], Token s) :
    ns.Gives m (liftM (oneOperand op (commaSeparated (trim (' ' :: listed [a]))))) a m := by
  refine gives_lift ?_
  rw [commaSeparated_trim h]
  rfl

theorem gives_threeOperands (op : String) {a b c : List Char} (h : ∀ s ∈ [a, b, c], Token s) :
    ns.Gives m (liftM (threeOperands op (commaSeparated (trim (' ' :: listed [a, b, c])))))
      (a, b, c) m := by
  refine gives_lift ?_
  rw [commaSeparated_trim h]
  rfl

theorem instruction_bin (symbols : Symbols) (line : Nat) (op : BinOp) (rest : List Char) :
    Reader.instruction symbols line (op.mnemonic.toList ++ ' ' :: rest) = do
      let (d, l, r) ← threeOperands op.mnemonic (commaSeparated (trim (' ' :: rest)))
      return Instr.bin op (← Reader.register d) (← Reader.operand l) (← Reader.operand r) := by
  cases op <;> rfl

/-- **Reading an instruction** gives what is written, with labels for targets. -/
theorem Sound.gives_instruction (hns : ns.Sound) (hi : ns.Covers i) (h : InOrder m i.registers m')
    (hm' : m' ≤ ns.registers.length) (line : Nat) :
    ns.Gives m (Reader.instruction ns.symbols line (ns.instruction i))
      (i.mapTargets fun t => ⟨ns.labels t, line⟩) m' := by
  have htokens := hns.tokens hi
  cases i
  -- where the mnemonic stands as a word, the reader's choice of the instruction computes
  all_goals dsimp only [Names.instruction, Instr.mnemonic]
  case mov d v =>
    obtain ⟨k, hd, hv⟩ := inOrder_cons.mp h
    refine (gives_twoOperands "mov" htokens).bind ?_
    exact (hns.gives_register hd (hv.le.trans hm')).bind ((hns.gives_operand hv hm').bind gives_pure)
  case bin op d l r =>
    obtain ⟨k, hd, hlr⟩ := inOrder_cons.mp h
    obtain ⟨k', hl, hr⟩ := inOrder_append.mp hlr
    have hk' := hr.le.trans hm'
    rw [instruction_bin]
    refine (gives_threeOperands op.mnemonic htokens).bind ?_
    exact (hns.gives_register hd (hl.le.trans hk')).bind
      ((hns.gives_operand hl hk').bind ((hns.gives_operand hr hm').bind gives_pure))
  case load d l =>
    obtain ⟨k, hd, hl⟩ := inOrder_cons.mp h
    refine (gives_twoOperands "load" htokens).bind ?_
    exact (hns.gives_register hd (hl.le.trans hm')).bind
      ((hns.gives_location hl hm' hi.globals).bind gives_pure)
  case store l v =>
    obtain ⟨k, hl, hv⟩ := inOrder_append.mp h
    refine (gives_twoOperands "store" htokens).bind ?_
    exact (hns.gives_location hl (hv.le.trans hm') hi.globals).bind
      ((hns.gives_operand hv hm').bind gives_pure)
  case addr d g =>
    have hg := hi.globals g (by simp [Instr.globals])
    refine (gives_twoOperands "addr" htokens).bind ?_
    exact (hns.gives_register h hm').bind ((gives_lift (hns.globalIndex_cell hg)).bind gives_pure)
  case fence =>
    cases h
    rfl
  case spawn d f =>
    have hf := hi.functions f (by simp [Instr.functions])
    refine (gives_twoOperands "spawn" htokens).bind ?_
    exact (hns.gives_register h hm').bind ((gives_lift (hns.functionIndex_function hf)).bind gives_pure)
  case join v =>
    refine (gives_oneOperand "join" htokens).bind ?_
    exact (hns.gives_operand h hm').bind gives_pure
  case lock l =>
    refine (gives_oneOperand "lock" htokens).bind ?_
    exact (hns.gives_location h hm' hi.globals).bind gives_pure
  case unlock l =>
    refine (gives_oneOperand "unlock" htokens).bind ?_
    exact (hns.gives_location h hm' hi.globals).bind gives_pure
  case assert v =>
    refine (gives_oneOperand "assert" htokens).bind ?_
    exact (hns.gives_operand h hm').bind gives_pure
  case jump t =>
    cases h
    have ht := hi.targets t (by simp [Instr.targets])
    refine (gives_oneOperand "jmp" htokens).bind ?_
    exact (gives_lift (target_label ht line)).bind gives_pure
  case branch v z t =>
    have ht := hi.targets t (by simp [Instr.targets])
    cases z with
    | true =>
        dsimp only
        refine (gives_twoOperands "brz" htokens).bind ?_
        exact (hns.gives_operand h hm').bind ((gives_lift (target_label ht line)).bind gives_pure)
    | false =>
        dsimp only
        refine (gives_twoOperands "brnz" htokens).bind ?_
        exact (hns.gives_operand h hm').bind ((gives_lift (target_label ht line)).bind gives_pure)
  case call name vs =>
    have hcallee := hns.gives_callee (hi.callee name vs rfl) h hm'
    rw [← (trimmed_callee name vs).trim_eq, ← trim_cons (show isBlank ' ' = true by decide)] at hcallee
    exact hcallee
  case ret =>
    cases h
    rfl

/-! #### Lines -/

theorem phrase_mnemonic (i : Instr Nat) : Phrase i.mnemonic.toList := by
  refine Token.phrase ?_
  unfold Instr.mnemonic
  split
  case h_2 op _ _ _ => cases op <;> exact token_of_all (by decide) (by decide)
  all_goals exact token_of_all (by decide) (by decide)

theorem Sound.phrase_callee (hns : ns.Sound) {name : String} {vs : List Operand}
    (hname : isIdent name.toList = true) (hvs : ∀ v ∈ vs, ∀ r ∈ v.registers, r < ns.registers.length) :
    Phrase (ns.callee name vs) := by
  have hargs := inLine_listed (hns.tokens_operands hvs)
  refine ⟨by simp [Names.callee], trimmed_callee name vs, ?_⟩
  refine List.forall_mem_cons.mpr ⟨by decide, List.forall_mem_append.mpr ⟨?_, ?_⟩⟩
  · exact (token_of_isIdent hname).phrase.plain
  · exact List.forall_mem_cons.mpr
      ⟨by decide, List.forall_mem_append.mpr ⟨hargs, List.forall_mem_singleton.mpr (by decide)⟩⟩

/-- **An instruction is a phrase.** -/
theorem Sound.phrase_instruction (hns : ns.Sound) (hi : ns.Covers i) : Phrase (ns.instruction i) := by
  have hop := phrase_mnemonic i
  have htokens := hns.tokens hi
  cases i with
  | fence | ret => exact hop
  | call name vs =>
      refine hop.append (hns.phrase_callee (hi.callee name vs rfl) fun v hv r hr => ?_)
      exact hi.registers r (List.mem_flatMap.mpr ⟨v, hv, hr⟩)
  | _ => exact hop.append (phrase_listed htokens (by simp [operands]))

theorem after?_mnemonic (i : Instr Nat) (s : List Char) :
    after? "global ".toList (i.mnemonic.toList ++ s) = none ∧
      after? "fn ".toList (i.mnemonic.toList ++ s) = none := by
  unfold Instr.mnemonic
  split
  case h_2 op _ _ _ => cases op <;> exact ⟨rfl, rfl⟩
  all_goals exact ⟨rfl, rfl⟩

end Names

end Interleave
