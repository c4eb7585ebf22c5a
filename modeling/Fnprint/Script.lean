import Fnprint.Lib.Ascii
import Fnprint.Query
import Fnprint.Shards

/-!
# What the terminal and rizin are shown

Names come out of untrusted files.  In the tables they are escaped byte by byte;
in a rizin script, where a name is an argument of a command, they are mapped to
identifiers.  A script is one comment and one rename for each reported function,
whatever the names are.
-/

namespace Fnprint

open Ascii Binary64 FloatModel Rounding Float.Model

/-! ## Names -/

/-- A character of `[A-Za-z0-9_.]`. -/
def IdentChar (c : Char) : Prop :=
  ('A' ≤ c ∧ c ≤ 'Z') ∨ ('a' ≤ c ∧ c ≤ 'z') ∨ ('0' ≤ c ∧ c ≤ '9') ∨ c = '_' ∨ c = '.'

instance (c : Char) : Decidable (IdentChar c) := inferInstanceAs (Decidable (_ ∨ _))

/-- What a name is called in a script. -/
def r2Ident (s : String) : String :=
  String.ofList ("fnp.".toList ++ s.toList.map fun c ↦ if IdentChar c then c else '_')

/-! ## Scripts -/

/-- A number with no decimals, ties to even. -/
def fixed0 (x : Float) : String :=
  if x.isNaN then "NaN"
  else
    (match sign x with | .negative => "-" | .positive => "") ++
      if magnitude x = inf then "inf"
      else toString (rne (value 52 (magnitude x)) (one Format.binary64))

/-- The lines a command prints. -/
def stdout (lines : List String) : String := String.ofList (unlines (lines.map String.toList))

def afnLine (name : String) (entry : UInt64) : String := "afn " ++ r2Ident name ++ " " ++ hex entry

def queryScript (threshold : Float) (named : List Named) : String :=
  stdout (("# fnprint: " ++ toString named.length ++ " function(s) named at >= " ++
      fixed0 (threshold * 100.0) ++ "%") ::
    named.map fun n ↦ afnLine n.guess n.entry)

def triageScript (hits : List TriageHit) : String :=
  let vulns := hits.filter fun h ↦ h.verdict = .vulnerable
  stdout (("# fnprint triage: " ++ toString vulns.length ++ " vuln-leaning function(s)") ::
    vulns.map fun h ↦ afnLine h.vulnName h.entry)

/-! ## Escaped names -/

/-- What `esc` shows for one byte. -/
def escByte (b : UInt8) : List Char :=
  if 0x20 ≤ b ∧ b ≤ 0x7e then [Char.ofNat b.toNat]
  else ['\\', 'x', Nat.digitChar (b.toNat / 16), Nat.digitChar (b.toNat % 16)]

theorem esc_eq_flatMap (s : String) : esc s = String.ofList ((bytes s).flatMap escByte) := rfl

theorem toNat_ofNat_printable {b : UInt8} (h : PrintableByte b) :
    (Char.ofNat b.toNat).toNat = b.toNat := by
  have hbounds := toNat_bounds_of_printableByte h
  rw [Char.toNat_ofNat, if_pos]
  exact Or.inl (by omega)

theorem digitChar_printable : ∀ d < 16, PrintableChar (Nat.digitChar d) := by
  decide

theorem escByte_eq {b : UInt8} (h : PrintableByte b) : escByte b = [Char.ofNat b.toNat] :=
  if_pos h

theorem escByte_printable (b : UInt8) : ∀ c ∈ escByte b, PrintableChar c := by
  by_cases hb : PrintableByte b
  · rw [escByte_eq hb, List.forall_mem_singleton, PrintableChar, toNat_ofNat_printable hb]
    exact toNat_bounds_of_printableByte hb
  · have hlt := b.toNat_lt
    have hother : ¬(0x20 ≤ b ∧ b ≤ 0x7e) := hb
    rw [escByte, if_neg hother]
    simp only [List.forall_mem_cons]
    exact ⟨by decide, by decide, digitChar_printable _ (by omega),
      digitChar_printable _ (by omega), fun c hc ↦ nomatch hc⟩

theorem esc_printable (s : String) : ∀ b ∈ bytes (esc s), PrintableByte b := by
  apply printable_bytes
  intro c hc
  rw [esc_eq_flatMap, String.toList_ofList] at hc
  obtain ⟨b, -, hc⟩ := List.mem_flatMap.mp hc
  exact escByte_printable b c hc

theorem escByte_ofNat {c : Char} (h : PrintableChar c) :
    escByte (UInt8.ofNat c.toNat) = [c] := by
  have hnat : (UInt8.ofNat c.toNat).toNat = c.toNat :=
    UInt8.toNat_ofNat_of_lt' (by change _ < 256; exact h.2.trans_lt (by decide))
  have hbyte : PrintableByte (UInt8.ofNat c.toNat) := by
    refine ⟨UInt8.le_iff_toNat_le.mpr ?_, UInt8.le_iff_toNat_le.mpr ?_⟩ <;> rw [hnat]
    · exact h.1
    · exact h.2
  rw [escByte_eq hbyte, hnat, Char.ofNat_toNat]

theorem esc_eq_self {s : String} (h : ∀ b ∈ bytes s, PrintableByte b) : esc s = s := by
  have hchars := printable_chars h
  have hself : ∀ l : List Char, (∀ c ∈ l, PrintableChar c) →
      (l.map fun c ↦ UInt8.ofNat c.toNat).flatMap escByte = l := by
    intro l
    induction l with
    | nil => exact fun _ ↦ rfl
    | cons c l ih =>
        intro hl
        obtain ⟨hc, hl⟩ := List.forall_mem_cons.mp hl
        rw [List.map_cons, List.flatMap_cons, escByte_ofNat hc, ih hl, List.singleton_append]
  rw [esc_eq_flatMap, bytes_of_printable hchars, hself _ hchars, String.ofList_toList]

/-! ## Scripts without an injection -/

/-- A rename of the function at an entry, with nothing else on its line. -/
def AfnLine (entry : UInt64) (line : List Char) : Prop :=
  ∃ ident digits, line = "afn fnp.".toList ++ ident ++ " 0x".toList ++ digits ∧
    (∀ c ∈ ident, IdentChar c) ∧ digits = Nat.toDigits 16 entry.toNat ∧ digits ≠ [] ∧
    ∀ c ∈ digits, HexDigit c

/-- The lines of a script: one comment, and a rename for each result. -/
def RenameScript {α : Type} (entry : α → UInt64) (results : List α) (script : String) : Prop :=
  ∃ comment renames, script.toList.splitOn '\n' = comment :: renames ++ [[]] ∧
    comment.head? = some '#' ∧ List.Forall₂ (fun r line ↦ AfnLine (entry r) line) results renames

theorem toList_hex (v : UInt64) : (hex v).toList = "0x".toList ++ Nat.toDigits 16 v.toNat := by
  rw [hex, String.toList_append, @String.toList_ofList (Nat.toDigits 16 v.toNat)]

theorem afnLine_afnLine (name : String) (entry : UInt64) :
    AfnLine entry (afnLine name entry).toList := by
  have hident : (r2Ident name).toList =
      "fnp.".toList ++ name.toList.map fun c ↦ if IdentChar c then c else '_' :=
    String.toList_ofList
  have hcommand : "afn fnp.".toList = "afn ".toList ++ "fnp.".toList := by decide
  have hnumber : " 0x".toList = " ".toList ++ "0x".toList := by decide
  refine ⟨name.toList.map fun c ↦ if IdentChar c then c else '_', Nat.toDigits 16 entry.toNat,
    ?_, ?_, rfl, Nat.toDigits_ne_nil, hexDigit_of_mem_toDigits⟩
  · rw [afnLine, String.toList_append, String.toList_append, String.toList_append, hident,
      toList_hex, hcommand, hnumber]
    simp only [List.append_assoc]
  · intro c hc
    obtain ⟨d, -, rfl⟩ := List.mem_map.mp hc
    split
    · next hd => exact hd
    · decide

theorem newline_notMem_of_afnLine {entry : UInt64} {line : List Char} (h : AfnLine entry line) :
    '\n' ∉ line := by
  obtain ⟨ident, digits, rfl, hident, -, -, hdigits⟩ := h
  intro hmem
  rcases List.mem_append.mp hmem with hmem | hmem
  · rcases List.mem_append.mp hmem with hmem | hmem
    · rcases List.mem_append.mp hmem with hmem | hmem
      · revert hmem
        decide
      · exact absurd (hident _ hmem) (by decide)
    · revert hmem
      decide
  · exact absurd (hdigits _ hmem) (by decide)

theorem newline_notMem_toString (n : ℕ) : '\n' ∉ (toString n).toList := by
  rw [Nat.toString_eq_ofList_toDigits, String.toList_ofList]
  exact newline_notMem_toDigits

theorem newline_notMem_fixed0 (x : Float) : '\n' ∉ (fixed0 x).toList := by
  unfold fixed0
  split
  · decide
  · rw [String.toList_append, List.mem_append]
    rintro (hsign | hvalue)
    · revert hsign
      cases sign x <;> decide
    · revert hvalue
      split
      · decide
      · exact newline_notMem_toString _

/-- A comment without a line feed, and renames, make a script. -/
theorem renameScript_stdout {α : Type} {name : α → String} {entry : α → UInt64}
    {results : List α} {comment : String} (hnewline : '\n' ∉ comment.toList)
    (hhead : comment.toList.head? = some '#') :
    RenameScript entry results
      (stdout (comment :: results.map fun r ↦ afnLine (name r) (entry r))) := by
  have hlines : ∀ l ∈ (comment :: results.map fun r ↦ afnLine (name r) (entry r)).map
      String.toList, '\n' ∉ l := by
    rw [List.map_cons, List.forall_mem_cons]
    refine ⟨hnewline, fun l hl ↦ ?_⟩
    obtain ⟨line, hline, rfl⟩ := List.mem_map.mp hl
    obtain ⟨r, -, rfl⟩ := List.mem_map.mp hline
    exact newline_notMem_of_afnLine (afnLine_afnLine (name r) (entry r))
  refine ⟨comment.toList, (results.map fun r ↦ afnLine (name r) (entry r)).map String.toList,
    ?_, hhead, ?_⟩
  · rw [stdout, String.toList_ofList, splitOn_unlines hlines, List.map_cons]
  · rw [List.map_map, List.forall₂_map_right_iff, List.forall₂_same]
    exact fun r _ ↦ afnLine_afnLine (name r) (entry r)

/-- Neither output can be injected into: a script renames each reported function
and does nothing else, and an escaped name is printable. -/
theorem names_not_injectable :
    (∀ threshold named, RenameScript Named.entry named (queryScript threshold named)) ∧
      (∀ hits, RenameScript TriageHit.entry (hits.filter fun h ↦ h.verdict = .vulnerable)
        (triageScript hits)) ∧
      ∀ s, (∀ b ∈ bytes (esc s), 0x20 ≤ b ∧ b ≤ 0x7e) ∧ esc (esc s) = esc s ∧
        ((∀ b ∈ bytes s, 0x20 ≤ b ∧ b ≤ 0x7e) → esc s = s) := by
  refine ⟨fun threshold named ↦ renameScript_stdout ?_ ?_,
    fun hits ↦ renameScript_stdout ?_ ?_,
    fun s ↦ ⟨esc_printable s, esc_eq_self (esc_printable s), esc_eq_self⟩⟩
  · exact notMem_toList_append (notMem_toList_append (notMem_toList_append
      (notMem_toList_append (by decide) (newline_notMem_toString _)) (by decide))
      (newline_notMem_fixed0 _)) (by decide)
  · exact head?_toList_append _ (head?_toList_append _ (head?_toList_append _
      (head?_toList_append _ (by decide))))
  · exact notMem_toList_append (notMem_toList_append (by decide) (newline_notMem_toString _))
      (by decide)
  · exact head?_toList_append _ (head?_toList_append _ (by decide))

end Fnprint
