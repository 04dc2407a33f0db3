import Interleave.Proofs.Program.InRange
import Mathlib.Data.List.Nodup

/-! # Declared names

The first pass over a text collects the names that are declared, the second pass the globals and functions
themselves.  For globals both have the same names.  For functions they have the same names unless the
first line of one ends in two braces: the first pass drops all of them, the second pass only the last
(`Line.doubled`).  This is the only way in which they can differ (`Program.read_names`).

Where they agree, the function that a `spawn` names is found by its name, and so is the entry point. -/

namespace Interleave

open Text

/-- Names that are identifiers, each of them once. -/
structure Distinct (names : List String) : Prop where
  ident : ∀ name ∈ names, Reader.isIdent name.toList = true
  nodup : names.Nodup

instance (names : List String) : Decidable (Distinct names) :=
  decidable_of_iff ((∀ name ∈ names, Reader.isIdent name.toList = true) ∧ names.Nodup)
    ⟨fun h => ⟨h.1, h.2⟩, fun h => ⟨h.ident, h.nodup⟩⟩

theorem Distinct.concat {names : List String} (h : Distinct names) {name : List Char}
    (hident : Reader.isIdent name = true) (hnew : String.ofList name ∉ names) :
    Distinct (names ++ [String.ofList name]) := by
  refine ⟨List.forall_mem_append.mpr ⟨h.ident, by simpa using hident⟩, ?_⟩
  rw [List.nodup_append]
  refine ⟨h.nodup, List.nodup_singleton _, fun a ha b hb => ?_⟩
  rw [List.mem_singleton.mp hb]
  exact ne_of_mem_of_not_mem ha hnew

theorem Distinct.take {names : List String} (h : Distinct names) (n : Nat) : Distinct (names.take n) :=
  ⟨fun name hname => h.ident name (List.mem_of_mem_take hname),
    h.nodup.sublist (List.take_sublist n names)⟩

/-- The table maps exactly the given names, each to its position. -/
structure Indexes (table names : List String) : Prop extends Distinct names where
  maps : ∀ name i, table.idxOf? name = some i ↔ names[i]? = some name

theorem Distinct.indexes {names : List String} (h : Distinct names) : Indexes names names := by
  refine ⟨h, fun name i => ?_⟩
  rw [List.idxOf?_eq_some_iff, List.getElem?_eq_some_iff]
  constructor
  · rintro ⟨hi, hget, -⟩
    exact ⟨hi, by simpa using hget⟩
  · rintro ⟨hi, rfl⟩
    refine ⟨hi, by simp, fun j hj => ?_⟩
    have hne : names[j] ≠ names[i] := fun he => by
      have := h.nodup.getElem_inj_iff.mp he
      omega
    simpa using hne

theorem Program.find?_eq_idxOf? (p : Program) (name : String) :
    p.find? name = (p.functions.map Function.name).idxOf? name := by
  rw [List.idxOf?, List.findIdx?_map]
  rfl

namespace Reader

/-! ### Names on a line -/

/-- The first line of a function that ends in two braces. -/
def Line.doubled (l : Line) : Bool :=
  (((after? "fn ".toList l.content).bind (before? '\x7b')).bind (before? '\x7b')).isSome

theorem Line.doubled_eq_false {l : Line} (h : after? "fn ".toList l.content = none) :
    l.doubled = false := by
  rw [doubled, h]
  rfl

/-- **Both passes read the same name for a global.** -/
theorem global_name {rest : List Char} {g : Global} (h : global rest = .ok g) :
    g.name = String.ofList (globalName rest) := by
  unfold global at h
  rw [globalName]
  split at h
  · rename_i name init hcut
    obtain ⟨v, -, h⟩ := exists_of_bind h
    cases h
    obtain ⟨rfl, hnot⟩ := cut_eq_some hcut
    rw [Text.takeWhile_append hnot (.inr rfl)]
  · rename_i hcut
    cases h
    rw [← List.append_nil rest, Text.takeWhile_append (notMem_of_cut hcut) (.inl rfl), List.append_nil]

/-- Without a second brace both passes read the same name for a function. -/
theorem functionName_of_before? {rest name : List Char} (h : before? '\x7b' rest = some name)
    (hname : before? '\x7b' name = none) : functionName rest = trim name := by
  have hlast : ∀ c ∈ name.getLast?, (c == '\x7b') = false := by
    intro c hc
    rw [beq_eq_false_iff_ne]
    rintro rfl
    rw [before?, if_pos (Option.mem_def.mp hc)] at hname
    cases hname
  have hbrace : dropEndWhile (· == '\x7b') (name ++ ['\x7b']) = dropEndWhile (· == '\x7b') name := by
    simp [dropEndWhile]
  rw [before?_eq_some h, functionName, hbrace, dropEndWhile_eq_self hlast]

/-- With a second brace what the second pass reads is no identifier. -/
theorem isIdent_of_before? {name : List Char} (h : isIdent (trim name) = true) :
    before? '\x7b' name = none := by
  rw [Option.eq_none_iff_forall_ne_some]
  intro s hs
  have hmem : '\x7b' ∈ name := before?_eq_some hs ▸ List.mem_append_right s (List.mem_singleton_self _)
  rw [isIdent_eq_false (mem_trim hmem (by decide)) (by decide)] at h
  cases h

/-! ### All names -/

/-- The names of the functions, with the one that is being read. -/
def Draft.names (d : Draft) : List String :=
  d.functions.map Function.name ++ d.current.toList.map Body.name

/-- What both passes have behind some lines: the same globals, and the same functions if no first line of
one ends in two braces. -/
structure Draft.Named (ls : List Line) (s : Symbols) (d : Draft) : Prop where
  globals : d.globals.map Global.name = s.globals
  distinct_globals : Distinct s.globals
  distinct_functions : Distinct s.functions
  declared : ∀ l ∈ ls, ∀ rest, after? "fn ".toList l.content = some rest →
    String.ofList (functionName rest) ∈ s.functions
  names : (∀ l ∈ ls, l.doubled = false) → d.names = s.functions
  doubled : (∀ name ∈ d.names, isIdent name.toList = true) → ∀ l ∈ ls, l.doubled = false

variable {symbols s s' : Symbols} {d d' : Draft} {l : Line} {ls : List Line}

/-- A line that does not begin a function. -/
theorem Draft.Named.concat (h : d.Named ls s) (hfn : after? "fn ".toList l.content = none) :
    d.Named (ls ++ [l]) s where
  globals := h.globals
  distinct_globals := h.distinct_globals
  distinct_functions := h.distinct_functions
  declared := by
    refine List.forall_mem_append.mpr ⟨h.declared, List.forall_mem_singleton.mpr fun rest hrest => ?_⟩
    rw [hfn] at hrest
    cases hrest
  names hls := h.names (List.forall_mem_append.mp hls).1
  doubled hnames := List.forall_mem_append.mpr
    ⟨h.doubled hnames, List.forall_mem_singleton.mpr (Line.doubled_eq_false hfn)⟩

theorem Body.name_finish {b : Body} {f : Function} (h : b.finish = .ok f) : f.name = b.name := by
  obtain ⟨body, -, h⟩ := exists_of_bind h
  cases h
  rfl

theorem Body.name_readLine {b b' : Body} (h : b.readLine symbols l = .ok b') : b'.name = b.name := by
  rcases Body.readLine_cases h with ⟨s, -, -, rfl⟩ | ⟨i, registers, -, rfl⟩ <;> rfl

/-- **A line declares the same names in both passes**, if it does not end in two braces. -/
theorem Draft.Named.lineStep (h : d.Named ls s) (hl : LineStep symbols l s d s' d') :
    d'.Named (ls ++ [l]) s' := by
  cases hl with
  | @closing b f hd hfn hf =>
      have hnames : Draft.names { d with functions := d.functions ++ [f], current := none } =
          d.names := by
        simp [Draft.names, hd, Body.name_finish hf]
      have h := h.concat hfn
      exact { h with names := hnames ▸ h.names, doubled := hnames ▸ h.doubled }
  | @inside b b' hd hfn hb =>
      have hnames : Draft.names { d with current := some b' } = d.names := by
        simp [Draft.names, hd, Body.name_readLine hb]
      have h := h.concat hfn
      exact { h with names := hnames ▸ h.names, doubled := hnames ▸ h.doubled }
  | layout hd hfn => exact { h.concat hfn with }
  | global hd hfn hg hident hnew =>
      have h := h.concat hfn
      refine { h with globals := ?_, distinct_globals := h.distinct_globals.concat hident hnew }
      simp [h.globals, global_name hg]
  | @function rest name hd hrest hname hident hnew =>
      have hdoubled : l.doubled = (before? '\x7b' name).isSome := by
        simp only [Line.doubled, hrest, hname, Option.bind_some]
      have hnames : Draft.names { d with current := some ⟨String.ofList (trim name), [], [], []⟩ } =
          d.names ++ [String.ofList (trim name)] := by
        simp [Draft.names, hd]
      refine ⟨h.globals, h.distinct_globals, h.distinct_functions.concat hident hnew, ?_, ?_, ?_⟩
      · refine List.forall_mem_append.mpr ⟨fun l hl rest hrest => ?_, List.forall_mem_singleton.mpr ?_⟩
        · exact List.mem_append_left _ (h.declared l hl rest hrest)
        · intro rest' hrest'
          obtain rfl : rest = rest' := Option.some.inj (hrest.symm.trans hrest')
          exact List.mem_append_right _ (List.mem_singleton_self _)
      · intro hls
        obtain ⟨hls, hl⟩ := List.forall_mem_append.mp hls
        have hnone : before? '\x7b' name = none := by
          simpa [hdoubled] using hl
        rw [hnames, h.names hls, functionName_of_before? hname hnone]
      · rw [hnames]
        intro hidents
        obtain ⟨hidents, htrim⟩ := List.forall_mem_append.mp hidents
        have hnone : before? '\x7b' name = none := isIdent_of_before? (by simpa using htrim)
        refine List.forall_mem_append.mpr ⟨h.doubled hidents, List.forall_mem_singleton.mpr ?_⟩
        rw [hdoubled, hnone]
        rfl

/-! ### Functions that are spawned -/

/-- The line is a `spawn` with these operands. -/
def Spawns (s d f : List Char) : Prop :=
  String.ofList (s.takeWhile (!isBlank ·)) = "spawn" ∧
    commaSeparated (trim (s.dropWhile (!isBlank ·))) = [d, f]

/-- Whatever the computation yields has the property. -/
def Yields {α : Type} (P : α → Prop) (x : InBody α) : Prop :=
  ∀ known a known', x known = .ok (a, known') → P a

section

variable {α β : Type} {P : β → Prop} {f : α → InBody β}

theorem yields_pure {b : β} (h : P b) : Yields P (pure b) := by
  intro known b' known' hx
  cases hx
  exact h

theorem yields_throw (e : ReadError) : Yields P (throw e) := by
  intro known b known' hx
  cases hx

theorem yields_bind {x : InBody α} (h : ∀ a, Yields P (f a)) : Yields P (x >>= f) := by
  intro known b known' hx
  have hbind : (x >>= f) known = (x known) >>= fun y => f y.1 y.2 := rfl
  rw [hbind] at hx
  obtain ⟨⟨a, known₁⟩, -, hx⟩ := exists_of_bind hx
  exact h a known₁ b known' hx

theorem yields_lift {y : Except ReadError α} (h : ∀ a, y = .ok a → Yields P (f a)) :
    Yields P (liftM y >>= f) := by
  cases y with
  | error e => exact yields_throw e
  | ok a => exact h a rfl

end

theorem twoOperands_eq_ok {op : String} {args : List (List Char)} {a b : List Char}
    (h : twoOperands op args = .ok (a, b)) : args = [a, b] := by
  unfold twoOperands at h
  split at h
  · cases h
    rfl
  · cases h

theorem yields_callee (s : List Char) : Yields (fun i => i.functions = []) (callee s) := by
  unfold callee
  split
  · split
    · exact yields_throw _
    · split
      · exact yields_throw _
      · dsimp only
        split
        · exact yields_bind fun vs => yields_pure rfl
        · exact yields_throw _
  · exact yields_throw _

/-- **The function that an instruction names** is the one that its last operand names. -/
theorem yields_instruction (n : Nat) (s : List Char) : Yields
    (fun i => ∀ f ∈ i.functions, ∃ d name, Spawns s d name ∧ functionIndex symbols name = .ok f)
    (instruction symbols n s) := by
  have hnone : ∀ i : Instr Target, i.functions = [] →
      ∀ f ∈ i.functions, ∃ d name, Spawns s d name ∧ functionIndex symbols name = .ok f := by
    intro i hi
    simp [hi]
  unfold instruction
  dsimp only
  split
  · apply yields_bind
    rintro ⟨d, l, r⟩
    exact yields_bind fun _ => yields_bind fun _ => yields_bind fun _ => yields_pure (hnone _ rfl)
  · split
    case h_6 hop =>
      -- only here a function is named
      apply yields_lift
      rintro ⟨d, name⟩ hargs
      apply yields_bind
      intro r
      apply yields_lift
      intro f hf
      refine yields_pure fun f' hf' => ?_
      rw [List.mem_singleton.mp hf']
      exact ⟨d, name, ⟨hop, twoOperands_eq_ok hargs⟩, hf⟩
    case h_1 | h_2 | h_3 | h_4 | h_12 | h_13 =>
      apply yields_bind
      rintro ⟨a, b⟩
      exact yields_bind fun _ => yields_bind fun _ => yields_pure (hnone _ rfl)
    case h_7 | h_8 | h_9 | h_10 | h_11 =>
      exact yields_bind fun _ => yields_bind fun _ => yields_pure (hnone _ rfl)
    case h_5 | h_15 => exact yields_bind fun _ => yields_pure (hnone _ rfl)
    case h_14 => exact fun known i known' h => hnone i (yields_callee _ known i known' h)
    case h_16 => exact yields_throw _

/-- One of the lines spawns the function. -/
def SpawnedBy (symbols : Symbols) (ls : List Line) (f : Nat) : Prop :=
  ∃ l ∈ ls, ∃ d name, Spawns l.content d name ∧ functionIndex symbols name = .ok f

theorem SpawnedBy.concat {f : Nat} (h : SpawnedBy symbols ls f) : SpawnedBy symbols (ls ++ [l]) f := by
  obtain ⟨k, hk, hspawns⟩ := h
  exact ⟨k, List.mem_append_left _ hk, hspawns⟩

/-- The functions that are spawned are named by lines. -/
structure Draft.Sourced (symbols : Symbols) (ls : List Line) (d : Draft) : Prop where
  functions : ∀ f ∈ d.functions, ∀ i ∈ f.body, ∀ g ∈ i.functions, SpawnedBy symbols ls g
  current : ∀ b, d.current = some b → ∀ i ∈ b.instrs, ∀ g ∈ i.functions, SpawnedBy symbols ls g

theorem Draft.Sourced.concat (h : d.Sourced symbols ls) : d.Sourced symbols (ls ++ [l]) where
  functions f hf i hi g hg := (h.functions f hf i hi g hg).concat
  current b hb i hi g hg := (h.current b hb i hi g hg).concat

theorem Draft.Sourced.lineStep (h : d.Sourced symbols ls) (hl : LineStep symbols l s d s' d') :
    d'.Sourced symbols (ls ++ [l]) := by
  have hconcat := h.concat (l := l)
  cases hl with
  | @closing b f hd hfn hf =>
      refine ⟨List.forall_mem_append.mpr ⟨hconcat.functions, List.forall_mem_singleton.mpr ?_⟩, by simp⟩
      obtain ⟨body, hbody, hf⟩ := exists_of_bind hf
      cases hf
      intro j hj g hg
      obtain ⟨i, hi, hij⟩ := exists_of_mem_mapM hbody hj
      obtain ⟨-, -, hfunctions, -⟩ := of_retarget hij
      exact hconcat.current b hd i hi g (hfunctions ▸ hg)
  | @inside b b' hd hfn hb =>
      refine ⟨hconcat.functions, fun b'' hb'' => ?_⟩
      cases hb''
      rcases Body.readLine_cases hb with ⟨name, -, -, rfl⟩ | ⟨i, registers, hread, rfl⟩
      · exact hconcat.current b hd
      · refine List.forall_mem_append.mpr ⟨hconcat.current b hd, List.forall_mem_singleton.mpr ?_⟩
        intro g hg
        have hnamed := yields_instruction l.number l.content b.registers i registers hread g hg
        exact ⟨l, List.mem_append_right _ (List.mem_singleton_self _), hnamed⟩
  | layout hd => exact ⟨hconcat.functions, hconcat.current⟩
  | global hd => exact ⟨hconcat.functions, hconcat.current⟩
  | function hd =>
      refine ⟨hconcat.functions, fun b hb => ?_⟩
      cases hb
      simp

theorem idxOf?_of_functionIndex {name : List Char} {f : Nat} (h : functionIndex symbols name = .ok f) :
    symbols.functions.idxOf? (String.ofList name) = some f := by
  unfold functionIndex at h
  split at h
  · rename_i hidx
    cases h
    exact hidx
  · cases h

end Reader

open Reader in
/-- **Both passes agree on names.**  In every text that can be read, the table of the first pass maps the
names of the globals, which are different identifiers, to their positions.  It does so with the names of
the functions exactly if no first line of a function ends in two braces.  Then each `spawn` leads to the
function that is found by the name in it, and a function `main` is found as the entry point. -/
theorem Program.read_names {text : String} {p : Program} (h : Program.read text = .ok p) :
    ∃ symbols, Symbols.ofLines (numberedLines text.toList) = .ok symbols ∧
      Indexes symbols.globals (p.globals.map Global.name) ∧
      (Indexes symbols.functions (p.functions.map Function.name) ↔
        ∀ l ∈ numberedLines text.toList, l.doubled = false) ∧
      ((∀ l ∈ numberedLines text.toList, l.doubled = false) →
        (∀ n s known r i known', instruction symbols n s known = .ok (.spawn r i, known') →
          ∃ d name, Spawns s d name ∧ p.find? (String.ofList name) = some i) ∧
        (∀ f ∈ p.functions, ∀ r i, .spawn r i ∈ f.body → ∃ l ∈ numberedLines text.toList,
          ∃ d name, Spawns l.content d name ∧ p.find? (String.ofList name) = some i) ∧
        ∀ l ∈ numberedLines text.toList, ∀ rest, after? "fn ".toList l.content = some rest →
          functionName rest = Program.entryPoint.toList → ∃ i, p.find? Program.entryPoint = some i) := by
  obtain ⟨symbols, hsymbols, h⟩ := exists_of_bind h
  obtain ⟨d, hdraft, h⟩ := exists_of_bind h
  have hnamed : d.Named (numberedLines text.toList) symbols :=
    LineStep.run (P := fun ls s d => d.Named ls s) (fun _ _ _ _ _ _ h hl => h.lineStep hl)
      ⟨rfl, ⟨by simp, by simp⟩, ⟨by simp, by simp⟩, by simp, fun _ => rfl, by simp⟩ hsymbols hdraft
  have hsourced : d.Sourced symbols (numberedLines text.toList) :=
    LineStep.run (P := fun ls _ d => d.Sourced symbols ls) (fun _ _ _ _ _ _ h hl => h.lineStep hl)
      ⟨by simp [Draft.empty], by simp [Draft.empty]⟩ hsymbols hdraft
  obtain ⟨hcurrent, hglobals, hfunctions⟩ := Draft.finish_eq_ok h
  have hnames : d.names = p.functions.map Function.name := by simp [Draft.names, hcurrent, hfunctions]
  refine ⟨symbols, hsymbols, ?_, ⟨fun h => ?_, fun h => ?_⟩, fun hls => ?_⟩
  · rw [hglobals, hnamed.globals]
    exact hnamed.distinct_globals.indexes
  · exact hnamed.doubled (hnames ▸ h.ident)
  · rw [← hnames, hnamed.names h]
    exact hnamed.distinct_functions.indexes
  · -- where the names are the same, looking up a function is looking up its name
    have hfind : ∀ name, p.find? name = symbols.functions.idxOf? name := by
      intro name
      rw [Program.find?_eq_idxOf?, ← hnames, hnamed.names hls]
    refine ⟨fun n s known r i known' hread => ?_, fun f hf r i hi => ?_, fun l hl rest hrest hmain => ?_⟩
    · obtain ⟨d, name, hspawns, hindex⟩ :=
        yields_instruction n s known _ known' hread i (by simp [Instr.functions])
      exact ⟨d, name, hspawns, (hfind _).trans (idxOf?_of_functionIndex hindex)⟩
    · rw [hfunctions] at hf
      obtain ⟨l, hl, d, name, hspawns, hindex⟩ :=
        hsourced.functions f hf _ hi i (by simp [Instr.functions])
      exact ⟨l, hl, d, name, hspawns, (hfind _).trans (idxOf?_of_functionIndex hindex)⟩
    · have hmem := hnamed.declared l hl rest hrest
      rw [hmain, String.ofList_toList] at hmem
      have hsome := List.isSome_idxOf?.mpr hmem
      obtain ⟨i, hi⟩ := Option.isSome_iff_exists.mp hsome
      exact ⟨i, (hfind _).trans hi⟩

/-- Declarations with and without blanks, one of them further down than the `spawn` that refers to it. -/
def spacedText : String :=
  "fn main\x7b\n spawn %t, w.1\n ret\n\x7d\nglobal x=1\nfn   w.1   \x7b\n ret\n\x7d\nglobal y ; zero\n"

/-- The program of `spacedText`. -/
def spaced : Program :=
  ⟨"e", [⟨"x", 1⟩, ⟨"y", 0⟩], [⟨"main", ["t"], [.spawn 0 1, .ret]⟩, ⟨"w.1", [], [.ret]⟩]⟩

open Reader in
theorem Program.read_names_spaced :
    Program.read spacedText = .ok spaced ∧
      (∀ l ∈ numberedLines spacedText.toList, l.doubled = false) ∧
      ∃ symbols, Symbols.ofLines (numberedLines spacedText.toList) = .ok symbols ∧
        Indexes symbols.globals ["x", "y"] ∧ Indexes symbols.functions ["main", "w.1"] ∧
        (∃ l ∈ numberedLines spacedText.toList, ∃ d name, Spawns l.content d name ∧
          spaced.find? (String.ofList name) = some 1) ∧
        ∃ i, spaced.find? Program.entryPoint = some i := by
  have hread : Program.read spacedText = .ok spaced := by decide +kernel
  have hsingle : ∀ l ∈ numberedLines spacedText.toList, l.doubled = false := by decide +kernel
  obtain ⟨symbols, hsymbols, hglobals, hfunctions, hfound⟩ := Program.read_names hread
  obtain ⟨-, hspawned, hentry⟩ := hfound hsingle
  have hfirst : ⟨1, "fn main\x7b".toList⟩ ∈ numberedLines spacedText.toList := by decide +kernel
  refine ⟨hread, hsingle, symbols, hsymbols, hglobals, hfunctions.mpr hsingle, ?_, ?_⟩
  · exact hspawned ⟨"main", ["t"], [.spawn 0 1, .ret]⟩ (by decide) 0 1 (by decide)
  · exact hentry _ hfirst "main\x7b".toList (by decide) (by decide)

/-- A function whose first line ends in two braces. -/
def doubledText : String := "fn main \x7b\x7b\n spawn %t, main\n ret\n\x7d\n"

open Reader in
/-- With two braces the passes disagree: the `spawn` is read, but there is no function `main`. -/
theorem Program.read_names_doubled :
    ∃ p symbols, Program.read doubledText = .ok p ∧
      Symbols.ofLines (numberedLines doubledText.toList) = .ok symbols ∧ symbols.functions = ["main"] ∧
      p.functions = [⟨"main \x7b", ["t"], [.spawn 0 0, .ret]⟩] ∧
      instruction symbols 2 "spawn %t, main".toList [] = .ok (.spawn 0 0, ["t"]) ∧
      p.find? "main" = none ∧ p.find? Program.entryPoint = none := by
  refine ⟨⟨"e", [], [⟨"main \x7b", ["t"], [.spawn 0 0, .ret]⟩]⟩, ⟨[], ["main"]⟩, ?_⟩
  decide +kernel

end Interleave
