import Interleave.Proofs.Program.Source
import Mathlib.Data.List.Forall2

/-! # Reading what is written

Every program is read as it is written (`Program.read_written`).

Each pass goes through the lines with a state, so it is followed declaration by declaration (`Passes`).
The first pass has the names of what has been declared; the second has the declarations themselves and,
within a function, the instructions and labels above the line (`ReadSoFar`). -/

namespace Interleave

open Text Reader

/-! ### Going through lines -/

section

variable {σ : Type} {f : σ → Line → Except LineError σ} {P Q R : σ → Prop}
  {contents contents' : List (List Char)}

/-- Lines with these contents lead from states with `P` to states with `Q`. -/
def Passes (f : σ → Line → Except LineError σ) (P : σ → Prop) (contents : List (List Char))
    (Q : σ → Prop) : Prop :=
  ∀ a, P a → ∀ ls : List Line, ls.map Line.content = contents → ∃ b, ls.foldlM f a = .ok b ∧ Q b

theorem passes_nil (P : σ → Prop) : Passes f P [] P := by
  intro a ha ls hls
  rw [List.map_eq_nil_iff.mp hls]
  exact ⟨a, rfl, ha⟩

theorem passes_line {s : List Char} (h : ∀ a n, P a → ∃ b, f a ⟨n, s⟩ = .ok b ∧ Q b) :
    Passes f P [s] Q := by
  intro a ha ls hls
  obtain ⟨⟨n, s⟩, rfl, rfl⟩ := List.map_eq_singleton_iff.mp hls
  obtain ⟨b, hb, hQ⟩ := h a n ha
  exact ⟨b, by rw [List.foldlM_cons, hb]; rfl, hQ⟩

theorem Passes.append (h : Passes f P contents Q) (h' : Passes f Q contents' R) :
    Passes f P (contents ++ contents') R := by
  intro a ha ls hls
  obtain ⟨ls, ls', rfl, rfl, rfl⟩ := List.map_eq_append_iff.mp hls
  obtain ⟨b, hb, hQ⟩ := h a ha ls rfl
  obtain ⟨c, hc, hR⟩ := h' b hQ ls' rfl
  exact ⟨c, by rw [List.foldlM_append, hb]; exact hc, hR⟩

theorem Passes.cons {s : List Char} (h : Passes f P [s] Q) (h' : Passes f Q contents R) :
    Passes f P (s :: contents) R :=
  h.append h'

theorem passes_flatMap {α : Type} {P : List α → σ → Prop} {lines : α → List (List Char)} {xs : List α}
    (h : ∀ done x rest, done ++ x :: rest = xs → Passes f (P done) (lines x) (P (done ++ [x]))) :
    Passes f (P []) (xs.flatMap lines) (P xs) := by
  have hrest : ∀ rest done, done ++ rest = xs → Passes f (P done) (rest.flatMap lines) (P xs) := by
    intro rest
    induction rest with
    | nil =>
        intro done hdone
        rw [List.append_nil] at hdone
        rw [hdone]
        exact passes_nil _
    | cons x rest ih =>
        intro done hdone
        rw [List.flatMap_cons]
        exact (h done x rest hdone).append (ih (done ++ [x]) (by simpa using hdone))
  exact hrest xs [] rfl

end

/-! ### The first pass -/

/-- The first pass at one line. -/
def noteLine (s : Symbols) (l : Line) : Except LineError Symbols :=
  atLine l.number (s.addLine l.content)

/-- The names that are declared. -/
def symbolsOf (ds : List Declaration) : Symbols :=
  ⟨(ds.filterMap Declaration.global?).map Global.name,
    (ds.filterMap Declaration.function?).map Function.name⟩

/-- A line that declares no name. -/
structure Quiet (s : List Char) : Prop where
  global : after? "global ".toList s = none
  function : after? "fn ".toList s = none

theorem Quiet.addLine {s : List Char} (h : Quiet s) (a : Symbols) : a.addLine s = .ok a := by
  simp only [Symbols.addLine, h.global, h.function]

theorem passes_quiet {contents : List (List Char)} (h : ∀ s ∈ contents, Quiet s) (P : Symbols → Prop) :
    Passes noteLine P contents P := by
  induction contents with
  | nil => exact passes_nil P
  | cons s contents ih =>
      obtain ⟨hs, hcontents⟩ := List.forall_mem_cons.mp h
      refine Passes.cons (passes_line fun a n ha => ⟨a, ?_, ha⟩) (ih hcontents)
      rw [noteLine, hs.addLine]
      rfl

theorem quiet_layoutLine (s : String) : Quiet (layoutLine s) := ⟨rfl, rfl⟩

theorem quiet_label {label : String} (h : isIdent label.toList = true) :
    Quiet (label.toList ++ [':']) := by
  have hblank : ' ' ∉ label.toList ++ [':'] := by
    simp [(token_of_isIdent h).notMem (show inToken ' ' = false by decide)]
  exact ⟨after?_of_notMem (by decide) hblank, after?_of_notMem (by decide) hblank⟩

theorem Names.quiet_instruction (ns : Names) (i : Instr Nat) : Quiet (ns.instruction i) :=
  have h := after?_mnemonic i
  ⟨(h _).1, (h _).2⟩

theorem quiet_closing : Quiet ['\x7d'] := ⟨rfl, rfl⟩

theorem trim_concat {name : List Char} (h : isIdent name = true) : trim (name ++ [' ']) = name := by
  have happend := trim_append (a := []) (b := [' ']) (by simp)
    (List.forall_mem_singleton.mpr (by decide)) name
  rw [List.nil_append] at happend
  rw [happend, (token_of_isIdent h).trimmed.trim_eq]

theorem Global.after?_line (g : Global) : after? "global ".toList g.line =
    some ((g.name.toList ++ [' ']) ++ '=' :: ' ' :: (Decimal.write g.init).toList) := by
  rw [List.append_assoc]
  exact after?_append _ _

theorem Global.equals_notMem {g : Global} (h : isIdent g.name.toList = true) :
    '=' ∉ g.name.toList ++ [' '] := by
  simp [(token_of_isIdent h).notMem (show inToken '=' = false by decide)]

theorem Function.after?_header (f : Function) :
    after? "fn ".toList f.header = some ((f.name.toList ++ [' ']) ++ ['\x7b']) := by
  rw [List.append_assoc]
  exact after?_append _ _

theorem addLine_globalLine {a : Symbols} {g : Global} (hg : isIdent g.name.toList = true)
    (hnew : g.name ∉ a.globals) :
    a.addLine g.line = .ok { a with globals := a.globals ++ [g.name] } := by
  have hname : globalName ((g.name.toList ++ [' ']) ++ '=' :: ' ' :: (Decimal.write g.init).toList) =
      g.name.toList := by
    rw [globalName, Text.takeWhile_append (Global.equals_notMem hg) (.inr rfl), trim_concat hg]
  simp only [Symbols.addLine, g.after?_line, hname, String.ofList_toList]
  simp [hg, hnew]

theorem addLine_header {a : Symbols} {f : Function} (hf : isIdent f.name.toList = true)
    (hnew : f.name ∉ a.functions) :
    a.addLine f.header = .ok { a with functions := a.functions ++ [f.name] } := by
  have hglobal : after? "global ".toList f.header = none := rfl
  have hname : functionName ((f.name.toList ++ [' ']) ++ ['\x7b']) = f.name.toList := by
    have hbrace : before? '\x7b' (f.name.toList ++ [' ']) = none := by simp [before?]
    rw [functionName_of_before? (before?_append _ _) hbrace, trim_concat hf]
  simp only [Symbols.addLine, hglobal, f.after?_header, hname, String.ofList_toList]
  simp [hf, hnew]

theorem notMem_map_of_nodup {α β : Type} {g : α → β} {before behind : List α} {a : α}
    (h : ((before ++ a :: behind).map g).Nodup) : g a ∉ before.map g := by
  rw [List.map_append, List.map_cons, List.nodup_middle, List.nodup_cons, List.mem_append, not_or] at h
  exact h.1.1

section

variable {p : Program} {labels : String → Nat → String}

/-- **The first pass** finds the names that are declared. -/
theorem Program.WellFormed.passes_symbols (hp : p.WellFormed)
    (hlabels : ∀ f ∈ p.functions, f.Labelled (labels f.name)) {ds : List Declaration}
    (hds : p.Arranges ds) :
    Passes noteLine (· = symbolsOf []) (ds.flatMap (·.lines p labels)) (· = symbolsOf ds) := by
  refine passes_flatMap (P := fun done a => a = symbolsOf done) fun done d rest hsplit => ?_
  have hd : d ∈ ds := by simp [← hsplit]
  cases d with
  | layout l =>
      have hsame : symbolsOf (done ++ [.layout l]) = symbolsOf done := by
        simp [symbolsOf, Declaration.global?, Declaration.function?]
      rw [hsame]
      exact passes_quiet (by simpa [Declaration.lines] using quiet_layoutLine l) _
  | global g =>
      have hglobals : p.globals =
          done.filterMap Declaration.global? ++ g :: rest.filterMap Declaration.global? := by
        rw [← hds.globals, ← hsplit, List.filterMap_append]
        rfl
      have hnew := notMem_map_of_nodup (hglobals ▸ hp.globals.nodup)
      refine passes_line fun a n ha => ⟨symbolsOf (done ++ [.global g]), ?_, rfl⟩
      subst ha
      rw [noteLine, addLine_globalLine (hp.ident_global (hds.global_mem hd)) hnew]
      simp [symbolsOf, atLine, Declaration.global?, Declaration.function?]
  | function f =>
      have hfunctions : p.functions =
          done.filterMap Declaration.function? ++ f :: rest.filterMap Declaration.function? := by
        rw [← hds.functions, ← hsplit, List.filterMap_append]
        rfl
      have hnew := notMem_map_of_nodup (hfunctions ▸ hp.functions.nodup)
      have hf := hds.function_mem hd
      have hbody : ∀ s ∈ (p.names f (labels f.name)).bodyLines f.jumps 0 f.body, Quiet s :=
        Names.forall_bodyLines (fun pc hpc => quiet_label ((hlabels f hf).ident pc hpc))
          fun i _ => Names.quiet_instruction _ i
      -- the first line adds the name, and no other line declares one
      refine Passes.cons (passes_line fun a n ha => ⟨symbolsOf (done ++ [.function f]), ?_, rfl⟩)
        (passes_quiet (List.forall_mem_append.mpr ⟨hbody, by simpa using quiet_closing⟩) _)
      subst ha
      rw [noteLine, addLine_header (hp.ident_function hf) hnew]
      simp [symbolsOf, atLine, Declaration.global?, Declaration.function?]

end

/-! ### The second pass -/

/-- What has been read behind the declarations. -/
def draftOf (ds : List Declaration) : Draft :=
  ⟨(ds.filterMap Declaration.layout?).getLast?, ds.filterMap Declaration.global?,
    ds.filterMap Declaration.function?, none⟩

section

variable {d : Draft} {f : Function}

theorem readDeclaration_layoutLine (d : Draft) (s : String) :
    d.readDeclaration (layoutLine s) = .ok { d with layout := some s } := by
  have hlayout : layout? (layoutLine s) = some s.toList := by
    have hquoted : Trimmed ('\x22' :: (s.toList ++ ['\x22'])) := by
      refine ⟨by simp [isBlank], ?_⟩
      rw [← List.cons_append, List.getLast?_concat]
      simp [isBlank]
    have hbehind : after? ['\x22'] (trim (' ' :: '\x22' :: (s.toList ++ ['\x22']))) =
        some (s.toList ++ ['\x22']) := by
      rw [trim_cons (by decide), hquoted.trim_eq]
      exact after?_append ['\x22'] _
    have hread : layout? (layoutLine s) =
        (after? ['\x22'] (trim (' ' :: '\x22' :: (s.toList ++ ['\x22'])))).bind (before? '\x22') := rfl
    rw [hread, hbehind, Option.bind_some, before?_append]
  have htarget : (after? "target".toList (layoutLine s)).isSome = true := rfl
  rw [Draft.readDeclaration, if_pos htarget, hlayout]
  simp

theorem readDeclaration_globalLine (d : Draft) {g : Global} (hg : isIdent g.name.toList = true) :
    d.readDeclaration g.line = .ok { d with globals := d.globals ++ [g] } := by
  have hread : Reader.global ((g.name.toList ++ [' ']) ++ '=' :: ' ' :: (Decimal.write g.init).toList) =
      .ok g := by
    rw [Reader.global, cut_append (Global.equals_notMem hg)]
    dsimp only
    rw [trim_concat hg, trim_cons (by decide), (token_write g.init).trimmed.trim_eq,
      String.ofList_toList, integer, Decimal.read?_write]
    rfl
  have htarget : (after? "target".toList g.line).isSome = false := rfl
  rw [Draft.readDeclaration, if_neg (Bool.eq_false_iff.mp htarget), g.after?_line]
  dsimp only
  rw [hread]
  rfl

theorem readDeclaration_header (d : Draft) (hf : isIdent f.name.toList = true) :
    d.readDeclaration f.header = .ok { d with current := some ⟨f.name, [], [], []⟩ } := by
  have htarget : (after? "target".toList f.header).isSome = false := rfl
  have hglobal : after? "global ".toList f.header = none := rfl
  rw [Draft.readDeclaration, if_neg (Bool.eq_false_iff.mp htarget), hglobal, f.after?_header]
  dsimp only
  rw [before?_append]
  dsimp only
  rw [trim_concat hf, String.ofList_toList]

end

/-! #### Bodies -/

/-- A body while it is read: the instructions that are done, with labels for targets, the first `m`
registers, and the labels of the positions in front of which they have been read. -/
structure ReadSoFar (ns : Names) (name : String) (done : List (Instr Nat)) (m : Nat) (labelled : List Nat)
    (b : Body) : Prop where
  name : b.name = name
  registers : b.registers = ns.registers.take m
  labels : b.labels = labelled.map fun pc => (ns.labels pc, pc)
  instrs : List.Forall₂ (fun i j => ∃ n, j = i.mapTargets fun t => ⟨ns.labels t, n⟩) done b.instrs

/-- The positions in front of `pc` that are jumped to. -/
def jumpsBefore (jumps : List Nat) (pc : Nat) : List Nat := (List.range pc).filter fun q => q ∈ jumps

theorem mem_jumpsBefore {jumps : List Nat} {pc q : Nat} :
    q ∈ jumpsBefore jumps pc ↔ q < pc ∧ q ∈ jumps := by
  simp [jumpsBefore]

theorem jumpsBefore_succ (jumps : List Nat) (pc : Nat) :
    jumpsBefore jumps (pc + 1) = jumpsBefore jumps pc ++ if pc ∈ jumps then [pc] else [] := by
  simp only [jumpsBefore, List.range_succ, List.filter_append, List.filter_singleton]
  by_cases h : pc ∈ jumps <;> simp [h]

theorem lookup_labels {labels : Nat → String} {l : List Nat} {pc : Nat}
    (hinj : ∀ q ∈ l, labels q = labels pc → q = pc) :
    (l.map fun q => (labels q, q)).lookup (labels pc) = if pc ∈ l then some pc else none := by
  induction l with
  | nil => rfl
  | cons q l ih =>
      obtain ⟨hq, hl⟩ := List.forall_mem_cons.mp hinj
      rw [List.map_cons, List.lookup_cons, ih hl]
      by_cases he : labels q = labels pc
      · obtain rfl := hq he
        simp
      · have hne : pc ≠ q := fun hpc => he (hpc ▸ rfl)
        have hbeq : (labels pc == labels q) = false := by simpa using Ne.symm he
        simp [hbeq, hne]

theorem retarget_mapTargets {τ υ ε : Type} {g : υ → Except ε τ} {h : τ → υ} {i : Instr τ}
    (hi : ∀ t ∈ i.targets, g (h t) = .ok t) : retarget g (i.mapTargets h) = .ok i := by
  cases i with
  | jump t => simp [Instr.mapTargets, retarget, hi t (by simp [Instr.targets]), Except.map]
  | branch c z t => simp [Instr.mapTargets, retarget, hi t (by simp [Instr.targets]), Except.map]
  | _ => rfl

theorem mapM_of_forall₂ {ε α β : Type} {g : α → Except ε β} {R : β → α → Prop} {l : List β} {l' : List α}
    (h : List.Forall₂ R l l') (hg : ∀ b ∈ l, ∀ a, R b a → g a = .ok b) : l'.mapM g = .ok l := by
  induction h with
  | nil => rfl
  | cons hab _ ih =>
      obtain ⟨hb, hl⟩ := List.forall_mem_cons.mp hg
      rw [List.mapM_cons, hb _ hab, ok_bind, ih hl]
      rfl

section

variable {ns : Names} {f : Function} {b : Body} {done : List (Instr Nat)} {m : Nat} {i : Instr Nat}
  {jumps : List Nat}

/-- The draft with a function that is being read. -/
def InFunction (d : Draft) (P : Body → Prop) (d' : Draft) : Prop :=
  ∃ b, d' = { d with current := some b } ∧ P b

theorem passes_bodyLine {symbols : Symbols} {d : Draft} {P Q : Body → Prop} {s : List Char}
    (hs : s ≠ ['\x7d']) (h : ∀ b n, P b → ∃ b', b.readLine symbols ⟨n, s⟩ = .ok b' ∧ Q b') :
    Passes (Draft.readLine symbols) (InFunction d P) [s] (InFunction d Q) := by
  refine passes_line ?_
  rintro - n ⟨b, rfl, hb⟩
  obtain ⟨b', hread, hb'⟩ := h b n hb
  refine ⟨_, ?_, b', rfl, hb'⟩
  simp only [Draft.readLine, if_neg hs, hread]
  rfl

/-- **The label in front of a position.** -/
theorem Function.Labelled.passes_labelLines (h : f.Labelled ns.labels) (d : Draft) (name : String)
    (done : List (Instr Nat)) (m : Nat) : Passes (Draft.readLine ns.symbols)
      (InFunction d (ReadSoFar ns name done m (jumpsBefore f.jumps done.length)))
      (ns.labelLines f.jumps done.length)
      (InFunction d (ReadSoFar ns name done m (jumpsBefore f.jumps (done.length + 1)))) := by
  rw [jumpsBefore_succ, Names.labelLines]
  split
  · rename_i hjump
    have hident := h.ident _ hjump
    refine passes_bodyLine (fun hbrace => ?_) fun b n hb => ?_
    · simpa using congrArg List.getLast? hbrace
    · -- the labels above belong to other positions, so none of them is the same
      have hnew : b.labels.lookup (ns.labels done.length) = none := by
        have hinj : ∀ q ∈ jumpsBefore f.jumps done.length,
            ns.labels q = ns.labels done.length → q = done.length :=
          fun q hq => h.inj q (mem_jumpsBefore.mp hq).2 _ hjump
        rw [hb.labels, lookup_labels hinj, if_neg]
        exact fun hmem => absurd (mem_jumpsBefore.mp hmem).1 (Nat.lt_irrefl _)
      refine ⟨{ b with labels := b.labels ++ [(ns.labels done.length, done.length)] }, ?_, ?_⟩
      · simp only [Body.readLine, before?_append, Names.label, (token_of_isIdent hident).trimmed.trim_eq,
          String.ofList_toList, hident, hnew, ← hb.instrs.length_eq]
        rfl
      · exact ⟨hb.name, hb.registers, by simp [hb.labels], hb.instrs⟩
  · rw [List.append_nil]
    exact passes_nil _

/-- **An instruction.** -/
theorem Names.Sound.passes_instruction (hns : ns.Sound) (hi : ns.Covers i) {m' : Nat}
    (h : InOrder m i.registers m') (hm' : m' ≤ ns.registers.length) (d : Draft) (name : String)
    (labelled : List Nat) : Passes (Draft.readLine ns.symbols)
      (InFunction d (ReadSoFar ns name done m labelled)) [ns.instruction i]
      (InFunction d (ReadSoFar ns name (done ++ [i]) m' labelled)) := by
  have hphrase := hns.phrase_instruction hi
  have hnot : ∀ c, inLine c = false → c ∉ ns.instruction i := fun c hc hmem => by
    rw [hphrase.plain c hmem] at hc
    cases hc
  refine passes_bodyLine (fun hbrace => ?_) fun b n hb => ?_
  · exact hnot '\x7d' (by decide) (hbrace ▸ List.mem_singleton_self _)
  · have hread := hns.gives_instruction hi h hm' n
    rw [Names.Gives, ← hb.registers] at hread
    refine ⟨{ b with
      registers := ns.registers.take m'
      instrs := b.instrs ++ [i.mapTargets fun t => ⟨ns.labels t, n⟩] }, ?_, ?_⟩
    · simp only [Body.readLine, before?_of_notMem (hnot ':' (by decide)), StateT.run, hread]
      rfl
    · exact ⟨hb.name, rfl, hb.labels, List.rel_append hb.instrs (.cons ⟨n, rfl⟩ .nil)⟩

/-- **The lines of a body**, from any instruction on. -/
theorem Names.Sound.passes_bodyLines (hns : ns.Sound) (hcovers : ∀ i ∈ f.body, ns.Covers i)
    (hlabels : f.Labelled ns.labels) (d : Draft) {rest : List (Instr Nat)}
    (hsplit : done ++ rest = f.body) (h : InOrder m (rest.flatMap Instr.registers) ns.registers.length) :
    Passes (Draft.readLine ns.symbols)
      (InFunction d (ReadSoFar ns f.name done m (jumpsBefore f.jumps done.length)))
      (ns.bodyLines f.jumps done.length rest)
      (InFunction d (ReadSoFar ns f.name f.body ns.registers.length
        (jumpsBefore f.jumps (f.body.length + 1)))) := by
  have hlabel := hlabels.passes_labelLines d f.name done m
  induction rest generalizing done m with
  | nil =>
      cases h
      rw [List.append_nil] at hsplit
      subst hsplit
      exact hlabel
  | cons i rest ih =>
      obtain ⟨m', hi, hrest⟩ := inOrder_append.mp h
      have hcover := hcovers i (by simp [← hsplit])
      refine hlabel.append (Passes.cons (hns.passes_instruction hcover hi hrest.le d f.name _) ?_)
      have hlength : (done ++ [i]).length = done.length + 1 := by simp
      have hsplit : (done ++ [i]) ++ rest = f.body := by simpa using hsplit
      have hnext := ih hsplit hrest (hlabels.passes_labelLines d f.name (done ++ [i]) m')
      rw [hlength] at hnext
      exact hnext

/-- **At the end of a body** the labels become positions again. -/
theorem ReadSoFar.finish (h : ReadSoFar ns f.name f.body f.registers.length
    (jumpsBefore f.jumps (f.body.length + 1)) b) (hregisters : ns.registers = f.registers)
    (hinj : ∀ pc ∈ f.jumps, ∀ pc' ∈ f.jumps, ns.labels pc = ns.labels pc' → pc = pc')
    (htargets : ∀ pc ∈ f.jumps, pc ≤ f.body.length) : b.finish = .ok f := by
  have hposition : ∀ t ∈ f.jumps, ∀ n, b.position ⟨ns.labels t, n⟩ = .ok t := by
    intro t ht n
    have hmem : t ∈ jumpsBefore f.jumps (f.body.length + 1) :=
      mem_jumpsBefore.mpr ⟨Nat.lt_succ_of_le (htargets t ht), ht⟩
    have hinj : ∀ q ∈ jumpsBefore f.jumps (f.body.length + 1), ns.labels q = ns.labels t → q = t :=
      fun q hq => hinj q (mem_jumpsBefore.mp hq).2 t ht
    simp only [Body.position, h.labels, lookup_labels hinj, if_pos hmem]
  have hinstrs : b.instrs.mapM (retarget b.position) = .ok f.body := by
    refine mapM_of_forall₂ h.instrs ?_
    rintro i hi j ⟨n, rfl⟩
    exact retarget_mapTargets fun t ht => hposition t (List.mem_flatMap.mpr ⟨i, hi, ht⟩) n
  have hname := h.name
  have hfirst := h.registers
  rw [hregisters, List.take_length] at hfirst
  rw [Body.finish, hinstrs, hname, hfirst]
  rfl

/-- **A function.** -/
theorem Names.Sound.passes_lines (hns : ns.Sound) (hname : isIdent f.name.toList = true)
    (hf : f.WellFormed) (hregisters : ns.registers = f.registers)
    (hcovers : ∀ i ∈ f.body, ns.Covers i) (hlabels : f.Labelled ns.labels)
    (htargets : ∀ pc ∈ f.jumps, pc ≤ f.body.length) (d : Draft) (hd : d.current = none) :
    Passes (Draft.readLine ns.symbols) (· = d) (f.lines ns)
      (· = { d with functions := d.functions ++ [f] }) := by
  have hheader : Passes (Draft.readLine ns.symbols) (· = d) [f.header]
      (InFunction d (ReadSoFar ns f.name [] 0 (jumpsBefore f.jumps 0))) := by
    refine passes_line fun a n ha => ⟨_, ?_, ⟨f.name, [], [], []⟩, rfl, ⟨rfl, by simp, rfl, .nil⟩⟩
    subst ha
    simp only [Draft.readLine, hd, readDeclaration_header a hname]
    rfl
  have hnumbered : ([] ++ f.body.flatMap Instr.registers).eraseDups = List.range ns.registers.length := by
    rw [hregisters]
    exact hf.numbered
  have horder : InOrder 0 (f.body.flatMap Instr.registers) ns.registers.length :=
    inOrder_of_eraseDups hnumbered rfl
  refine hheader.cons ((hns.passes_bodyLines hcovers hlabels d (List.nil_append _) horder).append ?_)
  refine passes_line ?_
  rintro - n ⟨b, rfl, hb⟩
  rw [hregisters] at hb
  have hfinish := hb.finish hregisters hlabels.inj htargets
  refine ⟨_, ?_, rfl⟩
  simp only [Draft.readLine, hfinish, ← hd]
  rfl

end

/-! ### Reading what is written -/

section

variable {p : Program} {labels : String → Nat → String} {ds : List Declaration}

theorem Program.Arranges.symbols (hds : p.Arranges ds) :
    symbolsOf ds = ⟨p.globals.map Global.name, p.functions.map Function.name⟩ := by
  rw [symbolsOf, hds.globals, hds.functions]

/-- **The second pass** finds the declarations. -/
theorem Program.WellFormed.passes_draft (hp : p.WellFormed)
    (hlabels : ∀ f ∈ p.functions, f.Labelled (labels f.name)) (hds : p.Arranges ds) :
    Passes (Draft.readLine (symbolsOf ds)) (· = draftOf []) (ds.flatMap (·.lines p labels))
      (· = draftOf ds) := by
  refine passes_flatMap (P := fun done d => d = draftOf done) fun done d rest hsplit => ?_
  have hd : d ∈ ds := by simp [← hsplit]
  cases d with
  | layout l =>
      refine passes_line fun a n ha => ⟨draftOf (done ++ [.layout l]), ?_, rfl⟩
      subst ha
      simp only [Draft.readLine, draftOf, readDeclaration_layoutLine]
      simp [atLine, Declaration.layout?, Declaration.global?, Declaration.function?]
  | global g =>
      have hg := hds.global_mem hd
      refine passes_line fun a n ha => ⟨draftOf (done ++ [.global g]), ?_, rfl⟩
      subst ha
      simp only [Draft.readLine, draftOf, readDeclaration_globalLine _ (hp.ident_global hg)]
      simp [atLine, Declaration.layout?, Declaration.global?, Declaration.function?]
  | function f =>
      have hf := hds.function_mem hd
      have hnext : draftOf (done ++ [.function f]) =
          { draftOf done with functions := (draftOf done).functions ++ [f] } := by
        simp [draftOf, Declaration.layout?, Declaration.global?, Declaration.function?]
      have htargets : ∀ pc ∈ f.jumps, pc ≤ f.body.length := by
        intro pc hpc
        obtain ⟨i, hi, hpc⟩ := List.mem_flatMap.mp hpc
        exact (hp.inRange f hf).targets i hi pc hpc
      rw [hnext, hds.symbols]
      exact (hp.sound hf (labels f.name)).passes_lines (hp.ident_function hf) (hp.bodies f hf) rfl
        (fun i hi => hp.covers hf (hlabels f hf) hi) (hlabels f hf) htargets (draftOf done) rfl

theorem Program.WellFormed.read_textOf (hp : p.WellFormed)
    (hlabels : ∀ f ∈ p.functions, f.Labelled (labels f.name)) (hds : p.Arranges ds)
    {rows : List (List Char)} (hrows : Spreads (ds.flatMap (·.lines p labels)) rows) :
    Program.read (textOf rows) = .ok p := by
  have hcontents := hrows.contents (hp.clean hlabels hds)
  obtain ⟨a, hsymbols, rfl⟩ := hp.passes_symbols hlabels hds _ rfl _ hcontents
  obtain ⟨d, hdraft, rfl⟩ := hp.passes_draft hlabels hds _ rfl _ hcontents
  have hfirst : Symbols.ofLines (numberedLines (textOf rows).toList) = .ok (symbolsOf ds) := hsymbols
  have hsecond : (numberedLines (textOf rows).toList).foldlM (Draft.readLine (symbolsOf ds))
      Draft.empty = .ok (draftOf ds) := hdraft
  rw [Program.read, hfirst, ok_bind, hsecond, ok_bind]
  simp [Draft.finish, draftOf, hds.layout, hds.globals, hds.functions, hp.layout_ne]

theorem Program.arranges_declarations (p : Program) : p.Arranges p.declarations := by
  constructor
  all_goals
    simp only [Program.declarations, List.filterMap_cons, List.filterMap_append, List.filterMap_map,
      Function.comp_def, Declaration.layout?, Declaration.global?, Declaration.function?]
    simp

/-- **Every program is read as it is written**, in the order layout, globals, functions as well as in any
other that keeps the globals and the functions in order, and with any blanks, comments and empty lines. -/
theorem Program.read_written (hp : p.WellFormed)
    (hlabels : ∀ f ∈ p.functions, f.Labelled (labels f.name)) :
    Program.read (textOf (p.lines labels)) = .ok p ∧
      ∀ ds, p.Arranges ds → ∀ rows, Spreads (ds.flatMap (·.lines p labels)) rows →
        Program.read (textOf rows) = .ok p :=
  ⟨hp.read_textOf hlabels p.arranges_declarations (spreads_refl _),
    fun _ hds _ hrows => hp.read_textOf hlabels hds hrows⟩

end

/-- A thread goes in circles until another one has filled a cell through its address.  There is a jump
behind the last instruction, and each function refers to what may stand further down. -/
def laps : Program where
  layout := "E-p:64 \x22odd\x22"
  globals := [⟨"x", Int64.minValue⟩, ⟨"y.1", 0⟩]
  functions := [
    ⟨"main", ["t", "a"], [.spawn 0 1, .load 1 (.global 1), .branch (.reg 1) false 4, .jump 1]⟩,
    ⟨"_fill", ["p", "q"], [.addr 0 1, .bin .sub 1 (.imm (-1)) (.reg 0), .store (.indirect 0) (.reg 1),
      .call "log" [.reg 1, .imm Int64.maxValue], .ret]⟩]

/-- The labels of `laps`. -/
def laps.labels (name : String) (pc : Nat) : String :=
  if name = "main" ∧ pc = 1 then "again" else "mov"

/-- The declarations of `laps` in another order. -/
def laps.mixed : List Declaration :=
  laps.functions.map .function ++ [.layout laps.layout] ++ laps.globals.map .global

/-- Lines with comments between them, indented. -/
def laps.loose (ss : List (List Char)) : List (List Char) :=
  ss.flatMap fun s => ["\t; then".toList, "  ".toList ++ s ++ " ".toList ++ "; fn \x7b".toList]

theorem laps.spreads_loose (ss : List (List Char)) : Spreads ss (laps.loose ss) := by
  induction ss with
  | nil => exact .nil
  | cons s ss ih =>
      have hblank : ∀ c ∈ ['\t', ' ', ' '], isBlank c = true := List.all_eq_true.mp (by decide)
      refine .blank ⟨['\t'], [], "; then".toList, rfl, ?_⟩ (.line ⟨[' ', ' '], [' '], _, rfl, ?_⟩ ih)
      · exact ⟨fun c hc => hblank c (by simp_all), by simp, .inr rfl, by decide⟩
      · exact ⟨fun c hc => hblank c (by simp_all), fun c hc => hblank c (by simp_all), .inr rfl,
          by decide⟩

theorem Program.read_written_laps :
    laps.WellFormed ∧ (∀ f ∈ laps.functions, f.Labelled (laps.labels f.name)) ∧
      laps.Arranges laps.mixed ∧ Program.read (textOf (laps.lines laps.labels)) = .ok laps ∧
      Program.read (textOf (laps.loose (laps.mixed.flatMap (·.lines laps laps.labels)))) = .ok laps := by
  have hbodies : ∀ f ∈ laps.functions, f.WellFormed := by
    refine List.forall_mem_cons.mpr ⟨?_, List.forall_mem_singleton.mpr ?_⟩
    · exact ⟨by decide, by decide, by simp⟩
    · exact ⟨by decide, by decide, by simp +decide⟩
  have hinRange : laps.InRange := by
    refine List.forall_mem_cons.mpr ⟨?_, List.forall_mem_singleton.mpr ?_⟩
    all_goals exact ⟨by decide, by decide, by decide, by decide⟩
  have hwell : laps.WellFormed :=
    ⟨by decide, ⟨by decide, by decide⟩, by decide, by decide, hinRange, hbodies⟩
  have hlabels : ∀ f ∈ laps.functions, f.Labelled (laps.labels f.name) := by
    refine List.forall_mem_cons.mpr ⟨?_, List.forall_mem_singleton.mpr ?_⟩
    all_goals exact ⟨by decide, by decide⟩
  have hmixed : laps.Arranges laps.mixed := ⟨by decide, by decide, by decide⟩
  have hwritten := Program.read_written hwell hlabels
  exact ⟨hwell, hlabels, hmixed, hwritten.1, hwritten.2 laps.mixed hmixed _ (laps.spreads_loose _)⟩

end Interleave
