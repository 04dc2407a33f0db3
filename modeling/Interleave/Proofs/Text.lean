import Interleave.Program.Reader
import Mathlib.Data.List.Basic
import Mathlib.Data.List.TakeWhile

/-! # Pieces of a text

How a text is taken apart into the pieces that it was put together from: blanks around a piece come off
(`trim_append`), pieces joined by a separator come out again (`fields_intercalate`), numbers are read as
they are written (`Decimal.read?_write`), and the lines of a text that have content are found whatever
stands around them (`Reader.map_content_numberedLines`). -/

namespace Interleave

namespace Text

variable {c : Char} {s a b : List Char}

/-! ### Blanks -/

/-- There is no blank at either end. -/
structure Trimmed (s : List Char) : Prop where
  head : ∀ c ∈ s.head?, isBlank c = false
  last : ∀ c ∈ s.getLast?, isBlank c = false

theorem trimmed_of_forall (h : ∀ c ∈ s, isBlank c = false) : Trimmed s :=
  ⟨fun c hc => h c (List.mem_of_mem_head? hc), fun c hc => h c (List.mem_of_getLast? hc)⟩

theorem trimmed_singleton (h : isBlank c = false) : Trimmed [c] :=
  trimmed_of_forall (List.forall_mem_singleton.mpr h)

theorem Trimmed.append (ha : Trimmed a) (hb : Trimmed b) (hane : a ≠ []) (hbne : b ≠ [])
    (s : List Char) : Trimmed (a ++ s ++ b) := by
  refine ⟨fun c hc => ha.head c ?_, fun c hc => hb.last c ?_⟩
  · rwa [List.append_assoc, List.head?_append_of_ne_nil _ hane] at hc
  · rwa [List.getLast?_append_of_ne_nil _ hbne] at hc

theorem dropWhile_eq_self {p : Char → Bool} (h : ∀ c ∈ s.head?, p c = false) : s.dropWhile p = s := by
  cases s with
  | nil => rfl
  | cons c s => rw [List.dropWhile_cons_of_neg (by simpa using h c rfl)]

theorem dropEndWhile_eq_self {p : Char → Bool} (h : ∀ c ∈ s.getLast?, p c = false) :
    dropEndWhile p s = s := by
  have hreverse := dropWhile_eq_self (s := s.reverse) (p := p) (by rwa [List.head?_reverse])
  rw [dropEndWhile, hreverse, List.reverse_reverse]

theorem Trimmed.trim_eq (h : Trimmed s) : trim s = s := by
  rw [trim, trimStart, dropWhile_eq_self h.head, trimEnd, dropEndWhile_eq_self h.last]

theorem trimEnd_append (hb : ∀ c ∈ b, isBlank c = true) (s : List Char) :
    trimEnd (s ++ b) = trimEnd s := by
  have hreverse : ∀ c ∈ b.reverse, isBlank c = true := fun c hc => hb c (List.mem_reverse.mp hc)
  simp only [trimEnd, dropEndWhile, List.reverse_append]
  rw [List.dropWhile_append_of_pos hreverse]

/-- **Blanks around a piece come off.** -/
theorem trim_append (ha : ∀ c ∈ a, isBlank c = true) (hb : ∀ c ∈ b, isBlank c = true)
    (s : List Char) : trim (a ++ s ++ b) = trim s := by
  rw [trim, trim, trimStart, trimStart, List.append_assoc, List.dropWhile_append_of_pos ha,
    List.dropWhile_append]
  split
  next h =>
    have hall : b.dropWhile isBlank = [] := List.dropWhile_eq_nil_iff.mpr hb
    rw [List.isEmpty_iff.mp h, hall]
  next => exact trimEnd_append hb _

theorem trim_cons (h : isBlank c = true) (s : List Char) : trim (c :: s) = trim s := by
  have happend := trim_append (a := [c]) (b := []) (by simpa using h) (by simp) s
  simpa using happend

theorem takeWhile_append (hs : c ∉ s) (ha : a = [] ∨ a.head? = some c) :
    (s ++ a).takeWhile (· != c) = s := by
  have hpos : ∀ d ∈ s, (d != c) = true := fun d hd => by simpa using ne_of_mem_of_not_mem hd hs
  rw [List.takeWhile_append_of_pos hpos]
  rcases ha with rfl | ha
  · simp
  · obtain ⟨rest, rfl⟩ := List.head?_eq_some_iff.mp ha
    simp

theorem mem_dropWhile {p : Char → Bool} (h : c ∈ s) (hp : p c = false) :
    c ∈ s.dropWhile p := by
  rw [← List.takeWhile_append_dropWhile (p := p) (l := s)] at h
  refine (List.mem_append.mp h).resolve_left fun htake => ?_
  rw [List.mem_takeWhile_imp htake] at hp
  cases hp

theorem mem_dropEndWhile {p : Char → Bool} (h : c ∈ s) (hp : p c = false) :
    c ∈ dropEndWhile p s :=
  List.mem_reverse.mpr (mem_dropWhile (List.mem_reverse.mpr h) hp)

theorem mem_trim (h : c ∈ s) (hc : isBlank c = false) : c ∈ trim s :=
  mem_dropEndWhile (mem_dropWhile h hc) hc

/-! ### Separators -/

theorem fields_of_notMem (h : c ∉ s) : fields c s = [s] := by
  induction s with
  | nil => rfl
  | cons d s ih =>
      have hne : d ≠ c := fun hd => h (hd ▸ List.mem_cons_self)
      rw [fields, if_neg hne, ih fun hs => h (List.mem_cons_of_mem _ hs)]

theorem fields_append (h : c ∉ a) (s : List Char) : fields c (a ++ c :: s) = a :: fields c s := by
  induction a with
  | nil => simp [fields]
  | cons d a ih =>
      have hne : d ≠ c := fun hd => h (hd ▸ List.mem_cons_self)
      rw [List.cons_append, fields, if_neg hne, ih fun ha => h (List.mem_cons_of_mem _ ha)]

/-- **Pieces that are joined by a separator come out again.** -/
theorem fields_intercalate {pieces : List (List Char)} (hne : pieces ≠ []) (h : ∀ s ∈ pieces, c ∉ s) :
    fields c ([c].intercalate pieces) = pieces := by
  induction pieces with
  | nil => exact absurd rfl hne
  | cons s pieces ih =>
      have hs := h s List.mem_cons_self
      cases pieces with
      | nil => simpa [List.intercalate] using fields_of_notMem hs
      | cons t pieces =>
          have hjoin : [c].intercalate (s :: t :: pieces) = s ++ c :: [c].intercalate (t :: pieces) := by
            simp [List.intercalate]
          rw [hjoin, fields_append hs, ih (by simp) fun u hu => h u (List.mem_cons_of_mem _ hu)]

/-- A blank at the start stays with the first piece, from which it is trimmed. -/
theorem map_trim_fields_cons {b : Char} (hb : isBlank b = true) (hc : b ≠ c) (s : List Char) :
    (fields c (b :: s)).map trim = (fields c s).map trim := by
  rw [fields, if_neg hc]
  cases hf : fields c s with
  | nil => exact absurd hf (fields_ne_nil c s)
  | cons f fs => simp [trim_cons hb]

theorem cut_append (h : c ∉ a) (s : List Char) : cut c (a ++ c :: s) = some (a, s) := by
  induction a with
  | nil => simp [cut]
  | cons d a ih =>
      have hne : d ≠ c := fun hd => h (hd ▸ List.mem_cons_self)
      rw [List.cons_append, cut, if_neg hne, ih fun ha => h (List.mem_cons_of_mem _ ha)]
      rfl

theorem cut_eq_some (h : cut c s = some (a, b)) : s = a ++ c :: b ∧ c ∉ a := by
  induction s generalizing a with
  | nil => cases h
  | cons d s ih =>
      rw [cut] at h
      split at h
      next hd =>
        cases h
        exact ⟨by rw [hd]; rfl, by simp⟩
      next hd =>
        obtain ⟨⟨a', b'⟩, hcut, h⟩ := Option.map_eq_some_iff.mp h
        cases h
        obtain ⟨rfl, hnot⟩ := ih hcut
        exact ⟨rfl, by simpa using ⟨Ne.symm hd, hnot⟩⟩

theorem notMem_of_cut (h : cut c s = none) : c ∉ s := by
  induction s with
  | nil => simp
  | cons d s ih =>
      rw [cut] at h
      split at h
      next => cases h
      next hd => simpa using ⟨Ne.symm hd, ih (Option.map_eq_none_iff.mp h)⟩

theorem after?_eq_none {p q : Char} {ps qs s r : List Char} (h : after? (p :: ps) s = some r)
    (hne : q ≠ p) : after? (q :: qs) s = none := by
  rw [eq_append_of_after? h, List.cons_append, after?, if_neg hne]

theorem before?_eq_some {e : Char} {s r : List Char} (h : before? e s = some r) : s = r ++ [e] := by
  unfold before? at h
  split at h
  · rename_i hlast
    obtain ⟨s, rfl⟩ := List.getLast?_eq_some_iff.mp hlast
    rw [List.dropLast_concat, Option.some.injEq] at h
    rw [h]
  · cases h

theorem before?_of_notMem (h : c ∉ s) : before? c s = none := by
  rw [before?, if_neg fun hlast => h (List.mem_of_getLast? hlast)]

theorem after?_of_notMem {p : List Char} (hp : c ∈ p) (h : c ∉ s) : after? p s = none := by
  rw [Option.eq_none_iff_forall_ne_some]
  intro r hr
  exact h (eq_append_of_after? hr ▸ List.mem_append_left r hp)

end Text

/-! ### Numbers -/

namespace Decimal

theorem digits?_toDigits (n : Nat) : digits? (Nat.toDigits 10 n) = some n := by
  have hdigits : (Nat.toDigits 10 n).all Char.isDigit = true :=
    List.all_eq_true.mpr fun c hc => Nat.isDigit_of_mem_toDigits (by decide) (by decide) hc
  have hne : (Nat.toDigits 10 n).isEmpty = false := by
    rw [List.isEmpty_eq_false_iff]
    exact Nat.toDigits_ne_nil
  have hvalue : (Nat.toDigits 10 n).foldl (fun n c => 10 * n + (c.toNat - '0'.toNat)) 0 = n :=
    Nat.ofDigitChars_ten_toDigits
  rw [digits?, hdigits, hne, hvalue]
  rfl

theorem write_eq (v : Int64) : (write v).toList =
    if 0 ≤ v.toInt then Nat.toDigits 10 v.toInt.toNat else '-' :: Nat.toDigits 10 (-v.toInt).toNat := by
  rw [write, Int.toString_eq_repr, Int.repr_eq_if]
  split
  · rw [Nat.toList_repr]
  · rw [String.toList_append, Nat.toList_repr]
    rfl

/-- What is written for a value starts with a sign or a digit. -/
theorem int?_write (v : Int64) : int? (write v).toList = some v.toInt := by
  rw [write_eq]
  split
  next h =>
    have hdigit : ∀ c s, Nat.toDigits 10 v.toInt.toNat = c :: s → c.isDigit = true := fun c s hs =>
      Nat.isDigit_of_mem_toDigits (by decide) (by decide) (hs ▸ List.mem_cons_self)
    have hint : int? (Nat.toDigits 10 v.toInt.toNat) =
        (digits? (Nat.toDigits 10 v.toInt.toNat)).map Int.ofNat := by
      unfold int?
      split
      next s hs => exact absurd (hdigit _ _ hs) (by decide)
      next s hs => exact absurd (hdigit _ _ hs) (by decide)
      next => rfl
    rw [hint, digits?_toDigits, Option.map_some, Int.ofNat_eq_natCast, Int.toNat_of_nonneg h]
  next h =>
    rw [int?, digits?_toDigits, Option.map_some, Int.ofNat_eq_natCast,
      Int.toNat_of_nonneg (by omega), Int.neg_neg]

/-- **A value is read as it is written.** -/
theorem read?_write (v : Int64) : read? (write v).toList = some v := by
  rw [read?, int?_write, Option.bind_some, if_pos ⟨v.minValue_le_toInt, v.toInt_le⟩, Int64.ofInt_toInt]

end Decimal

/-! ### Lines -/

namespace Reader

open Text

variable {s t before behind comment : List Char}

/-- Blanks around what a line says, and a comment behind it, are no content. -/
theorem content_append (hs : Trimmed s) (hsemicolon : ';' ∉ s) (hbefore : ∀ c ∈ before, isBlank c = true)
    (hbehind : ∀ c ∈ behind, isBlank c = true)
    (hcomment : comment = [] ∨ comment.head? = some ';') :
    content (before ++ s ++ behind ++ comment) = s := by
  have hnot : ∀ t : List Char, (∀ c ∈ t, isBlank c = true) → ';' ∉ t := fun t ht hmem =>
    absurd (ht ';' hmem) (by decide)
  have hall : ';' ∉ before ++ s ++ behind := by
    simp [hnot before hbefore, hsemicolon, hnot behind hbehind]
  rw [content, Text.takeWhile_append hall hcomment, trim_append hbefore hbehind, hs.trim_eq]

/-- A carriage return at the end of a line is no content either. -/
theorem content_dropReturn (s : List Char) : content ((before? '\r' s).getD s) = content s := by
  cases h : before? '\r' s with
  | none => rfl
  | some t =>
      rw [Option.getD_some, before?_eq_some h, content, content, List.takeWhile_append]
      split
      next hall =>
        -- without a comment, the carriage return is trimmed
        have htake : t.takeWhile (· != ';') = t :=
          (List.takeWhile_prefix _).sublist.eq_of_length hall
        have hreturn := trim_append (a := []) (b := ['\r']) (by simp)
          (List.forall_mem_singleton.mpr (by decide)) t
        rw [htake]
        simpa using hreturn.symm
      next => rfl

theorem map_content_numberedLines_eq (text : List Char) :
    (numberedLines text).map Line.content = ((lines text).map content).filter fun s => !s.isEmpty := by
  have hmap : ((lines text).zipIdx 1).map (content ∘ Prod.fst) = (lines text).map content := by
    rw [← List.map_map, List.zipIdx_map_fst]
  rw [← hmap, List.filter_map, numberedLines, List.filter_map, List.map_map]
  rfl

/-- **The contents of a text** are those of its lines, as far as they have one. -/
theorem map_content_numberedLines {rows : List (List Char)} (h : ∀ s ∈ rows, '\n' ∉ s) :
    (numberedLines (['\n'].intercalate rows)).map Line.content =
      (rows.map content).filter fun s => !s.isEmpty := by
  rw [map_content_numberedLines_eq]
  rcases List.eq_nil_or_concat rows with rfl | ⟨rows, last, rfl⟩
  · rfl
  rw [List.concat_eq_append] at h ⊢
  rw [lines, fields_intercalate (by simp) h]
  have hinit : (rows.map fun s => (before? '\r' s).getD s).map content = rows.map content := by
    rw [List.map_map]
    exact List.map_congr_left fun s _ => content_dropReturn s
  have hlast : (([last].filter fun s => !s.isEmpty).map content).filter (fun s => !s.isEmpty) =
      ([last].map content).filter fun s => !s.isEmpty := by
    cases last with
    | nil => rfl
    | cons c s => rfl
  simp only [List.dropLast_concat, List.getLast?_concat, Option.toList_some, List.map_append,
    List.filter_append, hinit, hlast]

end Reader

end Interleave
