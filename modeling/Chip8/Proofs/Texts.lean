import Chip8.Event
import Chip8.Instruction.Decode
import Chip8.Proofs.Messages

/-!
# Texts of instructions and events

The text of an instruction tells its name and its operands, and an instruction is found again by
these. The text of an event tells everything that the event carries, once its level is known.
-/

namespace Chip8

namespace Instruction

/-! ## Names and operands -/

/-- All instructions with operands of these values. -/
def withOperands : List Nat → List Instruction
  | [] => [clearScreen, ret]
  | [a] =>
      let addr := Opcode.addr (.ofNat a)
      let x := Opcode.n (.ofNat a)
      [jump addr, call addr, loadIndex addr, jumpOffset addr, shiftRight x, shiftLeft x,
        skipIfKeyPressed x, skipIfKeyNotPressed x, loadDelayTimer x, waitForKey x, setDelayTimer x,
        setSoundTimer x, addIndex x, loadGlyph x, storeBcd x, storeRegisters x, loadRegisters x]
  | [a, b] =>
      let x := Opcode.n (.ofNat a)
      let y := Opcode.n (.ofNat b)
      [skipIfEqualByte x (.ofNat b), skipIfNotEqualByte x (.ofNat b), loadByte x (.ofNat b),
        addByte x (.ofNat b), random x (.ofNat b), skipIfEqual x y, skipIfNotEqual x y, load x y,
        or x y, and x y, xor x y, add x y, sub x y, subN x y]
  | [a, b, c] => [draw (Opcode.n (.ofNat a)) (Opcode.n (.ofNat b)) (Opcode.n (.ofNat c))]
  | _ => []

theorem toNat_ofNat_operand {a : Nat} (h : a < 4096) : (UInt16.ofNat a).toNat = a :=
  UInt16.toNat_ofNat_of_lt' (Nat.lt_trans h (by decide))

theorem n_ofNat (x : Fin 16) : Opcode.n (.ofNat x.val) = x := by
  have hx : (UInt16.ofNat x.val).toNat = x.val :=
    toNat_ofNat_operand (Nat.lt_trans x.isLt (by decide))
  apply Fin.ext
  exact (congrArg (· % 16) hx).trans (Nat.mod_eq_of_lt x.isLt)

theorem addr_ofNat (addr : Fin 4096) : Opcode.addr (.ofNat addr.val) = addr := by
  apply Fin.ext
  exact (congrArg (· % 4096) (toNat_ofNat_operand addr.isLt)).trans (Nat.mod_eq_of_lt addr.isLt)

/-- Among the instructions with the same operands, an instruction is found by its name. -/
theorem find?_name (i : Instruction) :
    (withOperands (i.operands.map Prod.snd)).find? (·.name == i.name) = some i := by
  cases i with
  | _ => simp [withOperands, name, operands, n_ofNat, addr_ofNat]

theorem eq_of_name_eq {i j : Instruction} (hname : i.name = j.name)
    (hoperands : i.operands = j.operands) : i = j := by
  apply Option.some.inj
  rw [← find?_name i, hname, hoperands, find?_name]

theorem isAlphanum_of_mem_name (i : Instruction) : ∀ c ∈ i.name.toList, c.isAlphanum = true := by
  cases i with
  | _ => simp [name]

/-! ## Texts of operands -/

/-- The field names of the operands are made of letters and digits. -/
def Labelled (operands : List (String × Nat)) : Prop :=
  ∀ operand ∈ operands, ∀ c ∈ operand.1.toList, c.isAlphanum = true

def operandText (operand : String × Nat) : String := operand.1 ++ ": " ++ toString operand.2

def operandsText : List (String × Nat) → String
  | [] => ""
  | operand :: rest => " \x7b " ++ ", ".intercalate ((operand :: rest).map operandText) ++ " \x7d"

theorem labelled_operands (i : Instruction) : Labelled i.operands := by
  cases i with
  | _ => simp [Labelled, operands]

theorem text_eq (i : Instruction) : i.text = i.name ++ operandsText i.operands := by
  unfold text
  cases i.operands with
  | nil => exact String.append_empty.symm
  | cons operand rest =>
      change i.name ++ " \x7b " ++ ", ".intercalate ((operand :: rest).map operandText) ++
        " \x7d" = _
      rw [String.append_assoc, String.append_assoc, operandsText, String.append_assoc]

theorem operandText_inj {a b : String × Nat} (ha : ∀ c ∈ a.1.toList, c.isAlphanum = true)
    (hb : ∀ c ∈ b.1.toList, c.isAlphanum = true) (h : operandText a = operandText b) : a = b := by
  rw [operandText, operandText, String.append_assoc, String.append_assoc,
    append_inj_of_run ha hb (by simp) (by simp)] at h
  obtain ⟨hlabel, hvalue⟩ := h
  exact Prod.ext hlabel (toString_inj.1 ((String.append_right_inj _).1 hvalue))

theorem map_operandText_inj {a b : List (String × Nat)} (ha : Labelled a) (hb : Labelled b)
    (h : a.map operandText = b.map operandText) : a = b := by
  have hlength : a.length = b.length := by simpa using congrArg List.length h
  apply List.ext_getElem hlength
  intro k hk hk'
  have hk : operandText a[k] = operandText b[k] := by
    simpa [hk, hk'] using congrArg (fun l => l[k]?) h
  exact operandText_inj (ha _ (List.getElem_mem _)) (hb _ (List.getElem_mem _)) hk

/-- What holds of letters and digits and of the marks between them holds of all characters. -/
theorem forall_mem_operandText {p : Char → Bool} {operands : List (String × Nat)}
    (hoperands : Labelled operands) (hword : ∀ c, c.isAlphanum = true → p c = true)
    (hmarks : ∀ c ∈ ": ".toList, p c = true) :
    ∀ s ∈ operands.map operandText, ∀ c ∈ s.toList, p c = true := by
  rw [List.forall_mem_map]
  intro operand hoperand
  rw [operandText, String.toList_append, String.toList_append, List.forall_mem_append,
    List.forall_mem_append]
  refine ⟨⟨fun c hc => ?_, hmarks⟩, fun c hc => ?_⟩
  · exact hword c (hoperands operand hoperand c hc)
  · exact hword c (isAlphanum_of_mem_toString operand.2 c hc)

theorem operandsText_inj {a b : List (String × Nat)} (ha : Labelled a) (hb : Labelled b)
    (h : operandsText a = operandsText b) : a = b := by
  have hcomma := bne_of_isAlphanum ',' rfl
  cases a with
  | nil =>
      cases b with
      | nil => rfl
      | cons _ _ => simp [operandsText] at h
  | cons operand rest =>
      cases b with
      | nil => simp [operandsText] at h
      | cons operand' rest' =>
          rw [operandsText, operandsText, String.append_left_inj, String.append_right_inj] at h
          apply map_operandText_inj ha hb
          apply intercalate_inj _ _ _ _ h
          · exact forall_mem_operandText ha hcomma (by simp)
          · exact forall_mem_operandText hb hcomma (by simp)
          · exact List.cons_ne_nil _ _
          · exact List.cons_ne_nil _ _

/-! ## Texts of instructions -/

theorem takeWhile_operandsText (operands : List (String × Nat)) :
    (operandsText operands).toList.takeWhile Char.isAlphanum = [] := by
  cases operands with
  | nil => rfl
  | cons _ _ => simp [operandsText]

/-- Two instructions with the same text are the same instruction. -/
theorem text_inj {i j : Instruction} : i.text = j.text ↔ i = j := by
  refine ⟨fun h => ?_, fun h => by rw [h]⟩
  rw [i.text_eq, j.text_eq, append_inj_of_run i.isAlphanum_of_mem_name j.isAlphanum_of_mem_name
    (takeWhile_operandsText _) (takeWhile_operandsText _)] at h
  exact eq_of_name_eq h.1 (operandsText_inj i.labelled_operands j.labelled_operands h.2)

theorem ne_bracket_of_mem_text (i : Instruction) : ∀ c ∈ i.text.toList, (c != '[') = true := by
  have hbracket := bne_of_isAlphanum '[' rfl
  rw [text_eq, String.toList_append, List.forall_mem_append]
  constructor
  · exact fun c hc => hbracket c (i.isAlphanum_of_mem_name c hc)
  · have hoperands := forall_mem_operandText i.labelled_operands hbracket (by simp)
    cases hlist : i.operands with
    | nil => exact List.forall_mem_nil _
    | cons operand rest =>
        rw [hlist] at hoperands
        rw [operandsText, String.toList_append, String.toList_append, List.forall_mem_append,
          List.forall_mem_append]
        exact ⟨⟨by simp, forall_mem_intercalate (by simp) hoperands⟩, by simp⟩

end Instruction

/-! ## Texts of events -/

theorem Level.name_inj {a b : Level} : a.name = b.name ↔ a = b := by
  refine ⟨fun h => ?_, fun h => by rw [h]⟩
  cases a <;> cases b <;> simp [Level.name] at h ⊢

namespace Event

def registersText (registers : Vector UInt8 16) : String :=
  ", ".intercalate (registers.toList.map fun v => toString v.toNat)

/-- The text of an event that executes an instruction, cut where its parts end. -/
theorem text_executing (pc opcode : UInt16) (i : Instruction) (registers : Vector UInt8 16) :
    (executing pc opcode i registers).text =
      "[" ++ (Hex.padded 4 pc.toNat ++ ("] " ++ (Hex.padded 4 opcode.toNat ++ (" " ++
        ((i.text ++ " :: ") ++ ("[" ++ (registersText registers ++ "]"))))))) := by
  have hmark : " :: [" = " :: " ++ "[" := rfl
  calc
    (executing pc opcode i registers).text
      = "[" ++ Hex.padded 4 pc.toNat ++ "] " ++ Hex.padded 4 opcode.toNat ++ " " ++ i.text ++
          " :: [" ++ registersText registers ++ "]" := rfl
    _ = _ := by
          rw [hmark]
          simp only [String.append_assoc]

theorem registersText_inj {a b : Vector UInt8 16} (h : registersText a = registersText b) :
    a = b := by
  have hdigits : ∀ v : Vector UInt8 16, ∀ s ∈ v.toList.map fun v => toString v.toNat,
      ∀ c ∈ s.toList, (c != ',') = true := by
    intro v
    rw [List.forall_mem_map]
    intro value _ c hc
    exact bne_of_isAlphanum ',' rfl c (isAlphanum_of_mem_toString _ c hc)
  have hne : ∀ v : Vector UInt8 16, v.toList.map (fun v => toString v.toNat) ≠ [] := by
    intro v
    apply List.ne_nil_of_length_pos
    simp
  have hlists := intercalate_inj (hdigits a) (hdigits b) (hne a) (hne b) h
  apply Vector.toList_inj.1
  exact (List.map_inj_right fun x y hxy => UInt8.toNat_inj.1 (toString_inj.1 hxy)).1 hlists

/-- The text of an executed instruction tells where it was fetched from, its opcode, the instruction
and the registers. -/
theorem eq_of_text_executing_eq {pc pc' opcode opcode' : UInt16} {i j : Instruction}
    {registers registers' : Vector UInt8 16}
    (h : (executing pc opcode i registers).text = (executing pc' opcode' j registers').text) :
    executing pc opcode i registers = executing pc' opcode' j registers' := by
  have htext : ∀ (i : Instruction), ∀ c ∈ (i.text ++ " :: ").toList, (c != '[') = true := by
    intro i
    rw [String.toList_append, List.forall_mem_append]
    exact ⟨i.ne_bracket_of_mem_text, by simp⟩
  rw [text_executing, text_executing, String.append_right_inj,
    Hex.padded_append_inj (by simp) (by simp), String.append_right_inj,
    Hex.padded_append_inj (by simp) (by simp), String.append_right_inj,
    append_inj_of_run (htext i) (htext j) (by simp) (by simp), String.append_left_inj,
    Instruction.text_inj, String.append_right_inj, String.append_left_inj, UInt16.toNat_inj,
    UInt16.toNat_inj] at h
  obtain ⟨rfl, rfl, rfl, hregisters⟩ := h
  rw [registersText_inj hregisters]

/-- An event is told by the name of its level and its text. -/
theorem eq_of_text_eq {e e' : Event} (hname : e.level.name = e'.level.name)
    (htext : e.text = e'.text) : e = e' := by
  have hlevel : e.level = e'.level := Level.name_inj.1 hname
  cases e with
  | loaded size =>
      cases e' with
      | loaded size' =>
          have h : "loaded " ++ (toString size ++ " byte program at 0x200") =
              "loaded " ++ (toString size' ++ " byte program at 0x200") := by
            rw [← String.append_assoc, ← String.append_assoc]
            exact htext
          rw [String.append_right_inj, toString_append_inj (by simp) (by simp)] at h
          rw [h.1]
      | _ => cases hlevel
  | executing pc opcode i registers =>
      cases e' with
      | executing _ _ _ _ => exact eq_of_text_executing_eq htext
      | _ => cases hlevel
  | awaitingKey x =>
      cases e' with
      | awaitingKey x' =>
          have h : Hex.padded 1 x.val = Hex.padded 1 x'.val := (String.append_right_inj _).1 htext
          rw [Fin.ext (Hex.padded_inj.1 h)]
      | toneTick =>
          have h : "waiting for key press into V" ++ Hex.padded 1 x.val = "tone tick" := htext
          simp [← String.toList_inj] at h
      | _ => cases hlevel
  | toneTick =>
      cases e' with
      | toneTick => rfl
      | awaitingKey x =>
          have h : "tone tick" = "waiting for key press into V" ++ Hex.padded 1 x.val := htext
          simp [← String.toList_inj] at h
      | _ => cases hlevel
  | faulted pc fault =>
      cases e' with
      | faulted pc' fault' =>
          have h : "fault at 0x" ++ (Hex.padded 4 pc.toNat ++ (": " ++ fault.message)) =
              "fault at 0x" ++ (Hex.padded 4 pc'.toNat ++ (": " ++ fault'.message)) := by
            simp only [← String.append_assoc]
            exact htext
          rw [String.append_right_inj, Hex.padded_append_inj (by simp) (by simp),
            String.append_right_inj, UInt16.toNat_inj] at h
          rw [h.1, Fault.eq_of_message_eq h.2]
      | _ => cases hlevel

end Event

end Chip8
