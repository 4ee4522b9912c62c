import Amed.Generator.TemplateTables

/-!
# Arguments of x86

`process_node` of `Generator::X86` writes the names of places in capitals and puts the numbers of
widths in place of their names. It leaves the rest of an argument alone, so that the tables lead
from every template to its own arguments.
-/

namespace Amed.Generator

open CNode
open Enum (uc)

/-- `/^[A-Z]/i` -/
def startsWithLetter (text : List Char) : Bool := text.head?.any Char.isAlpha

/-- `-$size` -/
def negated (size : Nat) : List Char :=
  if size = 0 then ['0'] else '-' :: Printing.decimal size

/-- The text of a field is changed under a condition. -/
def changeIf (condition : Bool) (key : List Char) (change : List Char → List Char)
    (fields : Ast.Fields) : Ast.Fields :=
  if condition then Ast.set fields key (.scalar (change (Ast.get fields key).text)) else fields

/-- `process_node` on a hash. `widths` are the numbers of the widths by their names; a name without
a number counts as 0. -/
def processFields (widths : List Char → Nat) (fields : Ast.Fields) : Ast.Fields :=
  let fields := changeIf (Ast.has fields "encodedin".toList) "encodedin".toList uc fields
  changeIf (Ast.has fields "size".toList && startsWithLetter (Ast.get fields "size".toList).text)
    "size".toList (fun size => negated (widths size)) fields

theorem mem_changeIf {condition : Bool} {key : List Char} {change : List Char → List Char}
    {field : List Char × Ast} {fields : Ast.Fields}
    (h : field ∈ changeIf condition key change fields) : field.2.depth = 0 ∨ field ∈ fields := by
  rw [changeIf] at h
  split at h
  · obtain rfl | h := Ast.mem_set h
    · exact .inl rfl
    · exact .inr h
  · exact .inr h

theorem mem_processFields {widths : List Char → Nat} {field : List Char × Ast} {fields : Ast.Fields}
    (h : field ∈ processFields widths fields) : field.2.depth = 0 ∨ field ∈ fields := by
  rw [processFields] at h
  obtain hzero | h := mem_changeIf h
  · exact .inl hzero
  · exact mem_changeIf h

/-- `process_node` of `Generator::X86`. -/
def x86Node (widths : List Char → Nat) : Ast → Ast
  | .hash fields => .hash (processFields widths fields)
  | node => node

theorem depth_writtenBelow (widths : List Char → Nat) (node : Ast) :
    ∀ child ∈ writtenBelow (x86Node widths node), child.depth < node.depth := by
  intro child hchild
  cases node with
  | undefined => cases hchild
  | scalar text => cases hchild
  | array items => exact Nat.lt_succ_of_le (Ast.depth_le_of_item hchild)
  | hash fields =>
      obtain ⟨field, hfield, rfl⟩ := List.mem_map.mp hchild
      rw [Ast.depth]
      obtain hzero | hfield := depth_of_shown hfield
      · omega
      · obtain hzero | hfield := mem_processFields hfield
        · omega
        · exact Nat.lt_succ_of_le (Ast.depth_le_of_field hfield)

def x86Hook (widths : List Char → Nat) : Hook Unit where
  process node s := some (x86Node widths node, s)
  isHash h := by
    cases h
    exact ⟨_, rfl⟩
  rank := Ast.depth
  rank_lt h := by
    cases h
    exact depth_writtenBelow widths _

theorem changeIf_named {key : List Char} {fields : Ast.Fields} (hkey : isWordName key = true)
    (hne : "type".toList ≠ key) (condition : Bool) (change : List Char → List Char)
    (h : (Ast.hash fields).Named) : (Ast.hash (changeIf condition key change fields)).Named := by
  rw [changeIf]
  split
  · exact h.set hkey hne (.scalar _)
  · exact h

theorem keepsNames_x86Hook (widths : List Char → Nat) : KeepsNames (x86Hook widths) := by
  have hencodedin : isWordName "encodedin".toList = true := by decide
  have hsize : isWordName "size".toList = true := by decide
  intro node node' s s' hnode h
  cases h
  cases node with
  | hash fields =>
      rw [x86Node, processFields]
      exact changeIf_named hsize (by decide) _ _ (changeIf_named hencodedin (by decide) _ _ hnode)
  | _ => exact hnode

/-- What `Generator::X86` writes of an argument. -/
def x86Spec (widths : List Char → Nat) : HookSpec fun _ : Unit => x86Hook widths where
  Inv _ := True
  Le _ _ := True
  Writes _ _ argument node := convertArgument (x86Hook widths) argument () = some (node, ())
  le_refl _ := trivial
  le_trans _ _ := trivial
  mono _ h := h
  step _ h := ⟨trivial, trivial, h⟩

/-- The tables of `Generator::X86`. -/
def x86Tables (widths : List Char → Nat) (records : List (TemplatesRecord Unit)) :
    Option (TemplateState Unit) :=
  templateTables (fun _ => x86Hook widths) () "amed_x86_arguments_array".toList records

/-- The tables of the generator lead from every template to its own arguments. -/
theorem x86Tables_lead (widths : List Char → Nat) {records : List (TemplatesRecord Unit)}
    (hnamed : ArgumentsNamed records) :
    ∃ s, x86Tables widths records = some s ∧ Leads (x86Spec widths) records s := by
  have haccepts : ∀ (_ : Unit) node s, True → ∃ p, (x86Hook widths).process node s = some p ∧
      ∀ child ∈ writtenBelow p.1, True := fun _ _ _ _ => ⟨_, rfl, fun _ _ => trivial⟩
  obtain ⟨s, hs⟩ := exists_templateTables haccepts (fun _ _ _ _ _ _ => trivial) ()
    "amed_x86_arguments_array".toList
  exact ⟨s, hs,
    templateTables_lead (x86Spec widths) trivial (fun _ => keepsNames_x86Hook widths) hnamed hs⟩

/-- `AL`, read and written. -/
def alArgument : Ast.Fields :=
  [("type".toList, .scalar "REG".toList), ("value".toList, .scalar "AL".toList),
    ("read".toList, .scalar ['1']), ("write".toList, .scalar ['1'])]

/-- An immediate of a byte. -/
def ibArgument : Ast.Fields :=
  [("type".toList, .scalar "IMM".toList), ("encodedin".toList, .scalar "ib".toList),
    ("size".toList, .scalar ['8'])]

/-- `ADC` and `NEG` with `AL`. -/
def alRecords : List (TemplatesRecord Unit) :=
  [⟨(), [⟨"adc al, imm8".toList, [alArgument, ibArgument]⟩]⟩,
    ⟨(), [⟨"neg al".toList, [alArgument]⟩]⟩]

theorem alRecords_named : ArgumentsNamed alRecords := by
  have hal : (Ast.hash alArgument).Named :=
    .hash (List.all_eq_true.mp (by decide)) (fun _ => by decide)
      (by simp [alArgument, Ast.Named.scalar])
  have hib : (Ast.hash ibArgument).Named :=
    .hash (List.all_eq_true.mp (by decide)) (fun _ => by decide)
      (by simp [ibArgument, Ast.Named.scalar])
  simp [ArgumentsNamed, alRecords, hal, hib]

theorem alTables_lead : ∃ s, x86Tables (fun _ => 0) alRecords = some s ∧
    Leads (x86Spec fun _ => 0) alRecords s :=
  x86Tables_lead _ alRecords_named

end Amed.Generator
