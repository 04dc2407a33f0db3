import Interleave.Proofs.Program.Written

/-! # The text of a program

A program is written as the line of its layout, a line for each global and the lines of its functions:
one for each instruction, and one for the label in front of each position that is jumped to
(`Program.lines`).

    target datalayout = "e"
    global x = 1
    fn main {
    again:
    load %a, @x
    brnz %a, again
    ret
    }

Globals and functions may alternate (`Program.Arranges`), and lines may be indented, have comments, and
stand apart (`Spreads`); the contents of the text are the same (`Spreads.contents`).

What can be written is a `Program.WellFormed` one: names are identifiers, and the registers of a function
are numbered as they occur. -/

namespace Interleave

open Text Reader

/-! ### Declarations -/

/-- What stands in a text outside of functions. -/
inductive Declaration where
  | layout (s : String)
  | global (g : Global)
  | function (f : Function)
deriving DecidableEq, Repr

namespace Declaration

/-- The layout that is declared. -/
def layout? : Declaration → Option String
  | layout s => some s
  | _ => none

/-- The global that is declared. -/
def global? : Declaration → Option Global
  | global g => some g
  | _ => none

/-- The function that is declared. -/
def function? : Declaration → Option Function
  | function f => some f
  | _ => none

end Declaration

/-- The line of a layout. -/
def layoutLine (s : String) : List Char := "target datalayout = \x22".toList ++ (s.toList ++ ['\x22'])

/-- The line of a global. -/
def Global.line (g : Global) : List Char :=
  "global ".toList ++ (g.name.toList ++ (" = ".toList ++ (Decimal.write g.init).toList))

namespace Names

/-- The line of the label in front of a position, if there are jumps to it. -/
def labelLines (ns : Names) (jumps : List Nat) (pc : Nat) : List (List Char) :=
  if pc ∈ jumps then [ns.label pc ++ [':']] else []

/-- The lines of the instructions from position `pc` on. -/
def bodyLines (ns : Names) (jumps : List Nat) : Nat → List (Instr Nat) → List (List Char)
  | pc, [] => ns.labelLines jumps pc
  | pc, i :: is => ns.labelLines jumps pc ++ ns.instruction i :: ns.bodyLines jumps (pc + 1) is

end Names

namespace Function

/-- The positions that are jumped to. -/
def jumps (f : Function) : List Nat := f.body.flatMap Instr.targets

/-- The first line of a function. -/
def header (f : Function) : List Char := "fn ".toList ++ (f.name.toList ++ " \x7b".toList)

/-- The lines of a function. -/
def lines (ns : Names) (f : Function) : List (List Char) :=
  f.header :: (ns.bodyLines f.jumps 0 f.body ++ [['\x7d']])

end Function

namespace Program

/-- The names in a function of a program, with the given labels. -/
def names (p : Program) (f : Function) (labels : Nat → String) : Names :=
  ⟨p.globals.map Global.name, p.functions.map Function.name, f.registers, labels⟩

/-- The declarations of a program: the layout, the globals, the functions. -/
def declarations (p : Program) : List Declaration :=
  .layout p.layout :: (p.globals.map .global ++ p.functions.map .function)

/-- The declarations are those of the program; globals and functions may alternate. -/
structure Arranges (p : Program) (ds : List Declaration) : Prop where
  layout : ds.filterMap Declaration.layout? = [p.layout]
  globals : ds.filterMap Declaration.global? = p.globals
  functions : ds.filterMap Declaration.function? = p.functions

end Program

/-- The lines of a declaration in a program; `labels` gives the label of a position in the function of
a name. -/
def Declaration.lines (p : Program) (labels : String → Nat → String) :
    Declaration → List (List Char)
  | layout s => [layoutLine s]
  | global g => [g.line]
  | function f => f.lines (p.names f (labels f.name))

/-- The lines of a program. -/
def Program.lines (p : Program) (labels : String → Nat → String) : List (List Char) :=
  p.declarations.flatMap (·.lines p labels)

/-! ### Texts -/

/-- The text with the given lines. -/
def textOf (rows : List (List Char)) : String := String.ofList (['\n'].intercalate rows)

/-- The line says `s`: blanks may stand around it, and a comment behind it. -/
def Dresses (s row : List Char) : Prop :=
  ∃ before behind comment, row = before ++ s ++ behind ++ comment ∧
    (∀ c ∈ before, isBlank c = true) ∧ (∀ c ∈ behind, isBlank c = true) ∧
    (comment = [] ∨ comment.head? = some ';') ∧ '\n' ∉ before ++ behind ++ comment

/-- The lines say what is given, and nothing between. -/
inductive Spreads : List (List Char) → List (List Char) → Prop where
  | nil : Spreads [] []
  | line {s row : List Char} {ss rows : List (List Char)} (h : Dresses s row) (hs : Spreads ss rows) :
      Spreads (s :: ss) (row :: rows)
  | blank {row : List Char} {ss rows : List (List Char)} (h : Dresses [] row) (hs : Spreads ss rows) :
      Spreads ss (row :: rows)

/-! ### What can be written -/

/-- A function that can be written: its registers have names, and are numbered in the order in which the
instructions name them first. -/
structure Function.WellFormed (f : Function) : Prop where
  registers : Distinct f.registers
  numbered : (f.body.flatMap Instr.registers).eraseDups = List.range f.registers.length
  callees : ∀ name args, .call name args ∈ f.body → isIdent name.toList = true

/-- Text that neither ends its line nor begins a comment. -/
structure Plain (s : List Char) : Prop where
  semicolon : ';' ∉ s
  newline : '\n' ∉ s

/-- A program that can be written. -/
structure Program.WellFormed (p : Program) : Prop where
  layout_ne : p.layout ≠ ""
  layout_plain : Plain p.layout.toList
  globals : Distinct (p.globals.map Global.name)
  functions : Distinct (p.functions.map Function.name)
  inRange : p.InRange
  bodies : ∀ f ∈ p.functions, f.WellFormed

/-- The labels of a function are names, and different for different positions. -/
structure Function.Labelled (f : Function) (labels : Nat → String) : Prop where
  ident : ∀ pc ∈ f.jumps, isIdent (labels pc).toList = true
  inj : ∀ pc ∈ f.jumps, ∀ pc' ∈ f.jumps, labels pc = labels pc' → pc = pc'

/-! ### Clean lines -/

/-- A line with content and nothing around it. -/
structure Clean (s : List Char) : Prop extends Plain s where
  ne_nil : s ≠ []
  trimmed : Trimmed s

section

variable {s t : List Char} {c : Char}

theorem Plain.append (hs : Plain s) (ht : Plain t) : Plain (s ++ t) :=
  ⟨by simp [hs.semicolon, ht.semicolon], by simp [hs.newline, ht.newline]⟩

theorem Plain.cons (hs : Plain s) (hc : Plain [c]) : Plain (c :: s) := hc.append hs

theorem Phrase.clean (h : Phrase s) : Clean s := by
  refine ⟨⟨fun hmem => ?_, fun hmem => ?_⟩, h.ne_nil, h.trimmed⟩
  · exact absurd (h.plain _ hmem) (by decide)
  · exact absurd (h.plain _ hmem) (by decide)

theorem clean_singleton (hc : Plain [c]) (hblank : isBlank c = false) : Clean [c] :=
  ⟨hc, by simp, trimmed_singleton hblank⟩

/-- What is between clean pieces need not be clean. -/
theorem Clean.around (hs : Clean s) (ht : Clean t) {u : List Char} (hu : Plain u) :
    Clean (s ++ u ++ t) :=
  ⟨(hs.toPlain.append hu).append ht.toPlain, by simp [hs.ne_nil],
    hs.trimmed.append ht.trimmed hs.ne_nil ht.ne_nil u⟩

theorem clean_layoutLine {layout : String} (h : Plain layout.toList) : Clean (layoutLine layout) := by
  have hstart : Token "target".toList := token_of_all (by decide) (by decide)
  have hmiddle : Plain " datalayout = \x22".toList := ⟨by decide, by decide⟩
  have hquote : Clean ['\x22'] := clean_singleton ⟨by decide, by decide⟩ (by decide)
  have hline : layoutLine layout =
      "target".toList ++ (" datalayout = \x22".toList ++ layout.toList) ++ ['\x22'] := by
    rfl
  rw [hline]
  exact hstart.phrase.clean.around hquote (hmiddle.append h)

theorem Global.clean_line {g : Global} (h : isIdent g.name.toList = true) : Clean g.line := by
  have hstart : Token "global".toList := token_of_all (by decide) (by decide)
  have hname := (token_of_isIdent h).phrase.clean.toPlain
  have hequals : Plain " = ".toList := ⟨by decide, by decide⟩
  have hline : g.line = "global".toList ++ (' ' :: (g.name.toList ++ " = ".toList)) ++
      (Decimal.write g.init).toList := by
    have hword : "global ".toList = "global".toList ++ [' '] := rfl
    unfold Global.line
    rw [hword]
    simp only [List.append_assoc, List.cons_append, List.nil_append]
  rw [hline]
  refine hstart.phrase.clean.around (token_write g.init).phrase.clean ?_
  exact (hname.append hequals).cons ⟨by decide, by decide⟩

theorem Function.clean_header {f : Function} (h : isIdent f.name.toList = true) : Clean f.header := by
  have hstart : Token "fn".toList := token_of_all (by decide) (by decide)
  have hbrace : Clean ['\x7b'] := clean_singleton ⟨by decide, by decide⟩ (by decide)
  have hname := (token_of_isIdent h).phrase.clean.toPlain
  have hline : f.header = "fn".toList ++ (' ' :: (f.name.toList ++ [' '])) ++ ['\x7b'] := by
    have hwords : "fn ".toList = "fn".toList ++ [' '] ∧ " \x7b".toList = [' ', '\x7b'] := ⟨rfl, rfl⟩
    simp only [Function.header, hwords, List.append_assoc, List.cons_append, List.nil_append]
  rw [hline]
  exact hstart.phrase.clean.around hbrace
    ((hname.append ⟨by decide, by decide⟩).cons ⟨by decide, by decide⟩)

theorem clean_label {label : String} (h : isIdent label.toList = true) :
    Clean (label.toList ++ [':']) := by
  have hcolon : Clean [':'] := clean_singleton ⟨by decide, by decide⟩ (by decide)
  have haround := (token_of_isIdent h).phrase.clean.around hcolon (u := []) ⟨by simp, by simp⟩
  rwa [List.append_nil] at haround

/-- What holds for all labels and instructions holds for the lines of a body. -/
theorem Names.forall_bodyLines {ns : Names} {P : List Char → Prop} {jumps : List Nat} {pc : Nat}
    {is : List (Instr Nat)} (hlabel : ∀ pc ∈ jumps, P (ns.label pc ++ [':']))
    (hinstr : ∀ i ∈ is, P (ns.instruction i)) : ∀ s ∈ ns.bodyLines jumps pc is, P s := by
  have hlabels : ∀ pc, ∀ s ∈ ns.labelLines jumps pc, P s := by
    intro pc s hs
    unfold labelLines at hs
    split at hs
    · rename_i hpc
      rw [List.mem_singleton.mp hs]
      exact hlabel pc hpc
    · cases hs
  induction is generalizing pc with
  | nil => exact hlabels pc
  | cons i is ih =>
      obtain ⟨hi, his⟩ := List.forall_mem_cons.mp hinstr
      exact List.forall_mem_append.mpr ⟨hlabels pc, List.forall_mem_cons.mpr ⟨hi, ih his⟩⟩

end

/-! ### The lines of a program -/

section

variable {p : Program} {labels : String → Nat → String} {f : Function}

theorem Program.WellFormed.ident_global (hp : p.WellFormed) {g : Global} (hg : g ∈ p.globals) :
    isIdent g.name.toList = true :=
  hp.globals.ident _ (List.mem_map_of_mem hg)

theorem Program.WellFormed.ident_function (hp : p.WellFormed) (hf : f ∈ p.functions) :
    isIdent f.name.toList = true :=
  hp.functions.ident _ (List.mem_map_of_mem hf)

theorem Program.WellFormed.sound (hp : p.WellFormed) (hf : f ∈ p.functions) (labels : Nat → String) :
    (p.names f labels).Sound :=
  ⟨hp.globals, hp.functions, (hp.bodies f hf).registers⟩

theorem Program.WellFormed.covers (hp : p.WellFormed) (hf : f ∈ p.functions) {labels : Nat → String}
    (hlabels : f.Labelled labels) {i : Instr Nat} (hi : i ∈ f.body) : (p.names f labels).Covers i where
  globals g hg := by simpa [Program.names] using (hp.inRange f hf).globals i hi g hg
  functions h hh := by simpa [Program.names] using (hp.inRange f hf).functions i hi h hh
  registers := (hp.inRange f hf).registers i hi
  targets t ht := hlabels.ident t (List.mem_flatMap.mpr ⟨i, hi, ht⟩)
  callee name args he := (hp.bodies f hf).callees name args (he ▸ hi)

section

variable {ds : List Declaration} (hds : p.Arranges ds)

include hds

theorem Program.Arranges.layout_eq {l : String} (h : .layout l ∈ ds) : l = p.layout := by
  have hl : l ∈ ds.filterMap Declaration.layout? := List.mem_filterMap.mpr ⟨_, h, rfl⟩
  rwa [hds.layout, List.mem_singleton] at hl

theorem Program.Arranges.global_mem {g : Global} (h : .global g ∈ ds) : g ∈ p.globals := by
  rw [← hds.globals]
  exact List.mem_filterMap.mpr ⟨_, h, rfl⟩

theorem Program.Arranges.function_mem (h : .function f ∈ ds) : f ∈ p.functions := by
  rw [← hds.functions]
  exact List.mem_filterMap.mpr ⟨_, h, rfl⟩

end

/-- **The lines of a program have content, and nothing around it.** -/
theorem Program.WellFormed.clean (hp : p.WellFormed)
    (hlabels : ∀ f ∈ p.functions, f.Labelled (labels f.name)) {ds : List Declaration}
    (hds : p.Arranges ds) : ∀ s ∈ ds.flatMap (·.lines p labels), Clean s := by
  intro s hs
  obtain ⟨d, hd, hs⟩ := List.mem_flatMap.mp hs
  cases d with
  | layout l =>
      rw [List.mem_singleton.mp hs, hds.layout_eq hd]
      exact clean_layoutLine hp.layout_plain
  | global g =>
      have hg := hds.global_mem hd
      rw [List.mem_singleton.mp hs]
      exact Global.clean_line (hp.ident_global hg)
  | function f =>
      have hf := hds.function_mem hd
      have hclosing : Clean ['\x7d'] := clean_singleton ⟨by decide, by decide⟩ (by decide)
      have hbody : ∀ s ∈ (p.names f (labels f.name)).bodyLines f.jumps 0 f.body, Clean s :=
        Names.forall_bodyLines (fun pc hpc => clean_label ((hlabels f hf).ident pc hpc))
          fun i hi => ((hp.sound hf _).phrase_instruction (hp.covers hf (hlabels f hf) hi)).clean
      refine List.forall_mem_cons.mpr ⟨Function.clean_header (hp.ident_function hf), ?_⟩ s hs
      exact List.forall_mem_append.mpr ⟨hbody, by simpa using hclosing⟩

end

/-! ### Blanks and comments -/

theorem Clean.content_of_dresses {s row : List Char} (hs : Clean s) (h : Dresses s row) :
    content row = s ∧ '\n' ∉ row := by
  obtain ⟨before, behind, comment, rfl, hbefore, hbehind, hcomment, hnewline⟩ := h
  refine ⟨content_append hs.trimmed hs.semicolon hbefore hbehind hcomment, ?_⟩
  simp only [List.mem_append, not_or] at hnewline ⊢
  exact ⟨⟨⟨hnewline.1.1, hs.newline⟩, hnewline.1.2⟩, hnewline.2⟩

theorem content_of_dresses_nil {row : List Char} (h : Dresses [] row) :
    content row = [] ∧ '\n' ∉ row := by
  obtain ⟨before, behind, comment, rfl, hbefore, hbehind, hcomment, hnewline⟩ := h
  refine ⟨content_append ⟨by simp, by simp⟩ (by simp) hbefore hbehind hcomment, ?_⟩
  simpa using hnewline

/-- **What stands around lines is no content.** -/
theorem Spreads.contents {ss rows : List (List Char)} (h : Spreads ss rows) (hss : ∀ s ∈ ss, Clean s) :
    (numberedLines (textOf rows).toList).map Line.content = ss := by
  have hrows : (∀ row ∈ rows, '\n' ∉ row) ∧ (rows.map content).filter (fun s => !s.isEmpty) = ss := by
    induction h with
    | nil => simp
    | line hrow hs ih =>
        obtain ⟨hclean, hss⟩ := List.forall_mem_cons.mp hss
        obtain ⟨hcontent, hnewline⟩ := hclean.content_of_dresses hrow
        have hne := hclean.ne_nil
        obtain ⟨hrows, hfilter⟩ := ih hss
        refine ⟨List.forall_mem_cons.mpr ⟨hnewline, hrows⟩, ?_⟩
        rw [List.map_cons, hcontent, List.filter_cons_of_pos (by simpa using hne), hfilter]
    | blank hrow hs ih =>
        obtain ⟨hcontent, hnewline⟩ := content_of_dresses_nil hrow
        obtain ⟨hrows, hfilter⟩ := ih hss
        refine ⟨List.forall_mem_cons.mpr ⟨hnewline, hrows⟩, ?_⟩
        rw [List.map_cons, hcontent, List.filter_cons_of_neg (by simp), hfilter]
  rw [textOf, String.toList_ofList, map_content_numberedLines hrows.1, hrows.2]

theorem spreads_refl (ss : List (List Char)) : Spreads ss ss := by
  induction ss with
  | nil => exact .nil
  | cons s ss ih => exact .line ⟨[], [], [], by simp, by simp, by simp, .inl rfl, by simp⟩ ih

end Interleave
