import Chip8.Proofs.Hardware.Drawing
import Chip8.Proofs.Bounds

/-!
# Instructions on images

On the image of a machine the accesses of an instruction stay inside of their arrays and their
sums fit, unless the instruction faults before its first write. So they lead to the image of the
machine after the instruction.
-/

namespace Chip8.Hardware

variable (log : List Event) (m : Machine)

/-! ## Accesses to an image -/

theorem register_ofMachine (x : Fin 16) :
    register x (ofMachine log m) = .done (m.v x) (ofMachine log m) :=
  register_apply (ofMachine log m) x.isLt

theorem setRegister_ofMachine (x : Fin 16) (value : UInt8) :
    setRegister x value (ofMachine log m) = .done () (ofMachine log (m.setV x value)) := by
  have hset : m.registers.setIfInBounds x value = m.registers.set x value x.isLt := by
    apply Vector.ext
    intro k hk
    simp [Vector.getElem_set, Vector.getElem_setIfInBounds]
  rw [setRegister_apply _ x.isLt]
  change Result.done () { ofMachine log m with
    registers := m.registers.setIfInBounds x value } = _
  rw [hset]
  rfl

theorem indexRange_ofMachine {len : Nat} (hlen : len ≤ 16) :
    indexRange len (ofMachine log m) =
      match m.rangeFault? len with
      | some fault => .fault fault (ofMachine log m)
      | none => .done m.index.toNat (ofMachine log m) := by
  have hindex := m.index.toNat_lt
  have hfits : m.index.toNat + len < sizeValues := lt_sizeValues (by omega)
  have hindex' : (ofMachine log m).index = m.index := rfl
  simp only [indexRange, bind_apply, look_apply, if_apply, hindex', sum_apply hfits, raise_apply,
    pure_apply, Machine.rangeFault?]
  by_cases hpos : 0 < len
  · by_cases hout : 4096 < m.index.toNat + len
    · simp [hpos, hout]
    · simp [hpos, hout]
  · simp [hpos]

theorem le_of_rangeFault?_eq_none {m : Machine} {len : Nat} (hlen : 0 < len)
    (hf : m.rangeFault? len = none) : m.index.toNat + len ≤ 4096 :=
  ((m.rangeFault?_eq_none_iff len).1 hf).resolve_left (Nat.ne_of_gt hlen)

theorem storeByte_ofMachine {a : Nat} (ha : a < 4096) (b : UInt8) :
    storeByte a b (ofMachine log m) =
      .done () (ofMachine log { m with memory := m.memory.write a b }) := by
  simp only [storeByte, bind_apply, look_apply, id_eq, withEntry_apply _ ha, change_apply]
  rfl

theorem withSlice_bytes (memory : Memory) {base stop : Nat} {source : List UInt8}
    (hle : base ≤ stop) (hstop : stop ≤ 4096) (hlength : source.length = stop - base)
    (h : Hardware) :
    withSlice memory.bytes base stop source h = .done (memory.store base source).bytes h := by
  rw [withSlice_apply _ hle hstop hlength]
  congr 1
  apply Vector.ext
  intro a ha
  have hread := memory.read_store base source a
  simp only [Memory.read, Vector.getElem?_eq_getElem ha, Option.getD_some] at hread
  rw [hread, Vector.getElem_mapIdx]
  by_cases hin : base ≤ a ∧ a < stop
  · have hsource : a - base < source.length := by omega
    have hin' : base ≤ a ∧ a < base + source.length ∧ a < 4096 := by omega
    simp [hin, hin', hsource]
  · have hin' : ¬(base ≤ a ∧ a < base + source.length ∧ a < 4096) := by omega
    simp [hin, hin']

theorem slice_bytes (memory : Memory) {base len : Nat} (hfits : base + len ≤ 4096)
    (h : Hardware) :
    slice memory.bytes base (base + len) h = .done (memory.slice base len) h := by
  rw [slice_apply _ (Nat.le_add_right base len) hfits]
  congr 1
  apply List.ext_getElem
  · simp
    omega
  · intro i hi hi'
    have hlen : i < len := by simpa using hi'
    have ha : base + i < 4096 := by omega
    simp [Memory.slice, Memory.read, ha]

/-! ## Groups of instructions -/

theorem setRegister_flag (value : UInt8) :
    setRegister 15 value (ofMachine log m) =
      .done () (ofMachine log (m.setV Machine.flagRegister value)) :=
  setRegister_ofMachine log m Machine.flagRegister value

theorem combine_ofMachine (x y : Fin 16) (value : UInt8 → UInt8 → UInt8) :
    combine x y value (ofMachine log m) =
      .done .next (ofMachine log (m.setV x (value (m.v x) (m.v y)))) := by
  simp only [combine, bind_apply, register_ofMachine, setRegister_ofMachine, pure_apply]

theorem combineFlagged_ofMachine (x y : Fin 16) (value flagged : UInt8 → UInt8 → UInt8)
    {f : Bool} (hf : flagged (m.v x) (m.v y) = flag f) :
    combineFlagged x y value flagged (ofMachine log m) =
      .done .next (ofMachine log (m.setFlagged x (value (m.v x) (m.v y)) f)) := by
  simp only [combineFlagged, bind_apply, register_ofMachine, setRegister_ofMachine,
    setRegister_flag, pure_apply, hf, Machine.setFlagged]

theorem skipComparing_ofMachine (x y : Fin 16) (holds : UInt8 → UInt8 → Bool) :
    skipComparing x y holds (ofMachine log m) =
      .done (.skipIf (holds (m.v x) (m.v y))) (ofMachine log m) := by
  simp only [skipComparing, bind_apply, register_ofMachine, pure_apply]

theorem isKeyPressed_ofMachine (key : UInt8) :
    isKeyPressed key (ofMachine log m) = .done (m.isKeyPressed key) (ofMachine log m) := rfl

theorem skipOnKey_ofMachine (x : Fin 16) (down : Bool) :
    skipOnKey x down (ofMachine log m) =
      .done (.skipIf (m.isKeyPressed (m.v x) == down)) (ofMachine log m) := by
  simp only [skipOnKey, bind_apply, register_ofMachine, isKeyPressed_ofMachine, pure_apply]

theorem target_skipIf (skip : Bool) : (Flow.skipIf skip).target m.pc = m.skipIf skip := by
  cases skip with
  | true => rfl
  | false => rfl

/-! ## Drawing on an image -/

theorem getElem_cells (d : Display) {x y : Nat} (hx : x < 64) (hy : y < 32) :
    (cells d)[y][x] = flag (d.pixel x y) := by
  simp [cells]

theorem cells_blank : cells .blank = .replicate 32 (.replicate 64 0) := by
  apply display_ext
  intro x y hx hy
  rw [getElem_cells _ hx hy, Display.pixel_blank]
  simp

theorem flag_eq_one_iff (b : Bool) : flag b = 1 ↔ b = true := by
  cases b with
  | true => simp
  | false => simp

theorem flag_xor_one (b c : Bool) : (if c then flag b ^^^ 1 else flag b) = flag (b ^^ c) := by
  cases b with
  | true => cases c <;> rfl
  | false => cases c <;> rfl

theorem hits_ofMachine (s : Sprite) :
    (ofMachine log m).Hits s.covers ↔ m.display.collides s = true := by
  rw [Display.collides_iff]
  constructor
  · rintro ⟨x, y, hcovers, hlit⟩
    rw [cell_eq _ x.isLt y.isLt] at hlit
    have hpixel : flag (m.display.pixel x y) = 1 := by
      rw [← getElem_cells _ x.isLt y.isLt]
      exact hlit
    exact ⟨x, x.isLt, y, y.isLt, (flag_eq_one_iff _).1 hpixel, hcovers⟩
  · rintro ⟨x, hx, y, hy, hpixel, hcovers⟩
    refine ⟨⟨x, hx⟩, ⟨y, hy⟩, hcovers, ?_⟩
    rw [cell_eq _ hx hy]
    exact (getElem_cells _ hx hy).trans ((flag_eq_one_iff _).2 hpixel)

theorem flipped_cells (d : Display) (s : Sprite) :
    flipped (cells d) s.covers = cells (d.toggle s) := by
  apply display_ext
  intro x y hx hy
  rw [getElem_flipped _ _ hx hy, getElem_cells _ hx hy, getElem_cells _ hx hy, flag_xor_one,
    Display.pixel_toggle d s hx hy]

theorem flipWhere_ofMachine (s : Sprite) :
    (ofMachine log (m.setV Machine.flagRegister 0)).flipWhere s.covers =
      ofMachine log
        { m.setV Machine.flagRegister (flag (m.display.collides s)) with
          display := m.display.toggle s } := by
  have hcollides := hits_ofMachine log (m.setV Machine.flagRegister 0) s
  have hdisplay : (m.setV Machine.flagRegister 0).display = m.display := rfl
  rw [hdisplay] at hcollides
  have hregisters : (ofMachine log (m.setV Machine.flagRegister 0)).raised s.covers =
      (m.setV Machine.flagRegister (flag (m.display.collides s))).registers := by
    have hset : (m.registers.set 15 0).setIfInBounds 15 1 = m.registers.set 15 1 := by
      apply Vector.ext
      intro k hk
      simp only [Vector.getElem_set, Vector.getElem_setIfInBounds]
      split
      · rfl
      · rfl
    rw [raised]
    cases hlit : m.display.collides s with
    | true => exact (if_pos (hcollides.2 hlit)).trans hset
    | false =>
        refine if_neg fun hit => ?_
        rw [hcollides, hlit] at hit
        exact Bool.false_ne_true hit
  rw [flipWhere_eq, hregisters]
  change withScreen _ _ (flipped (cells m.display) s.covers) = _
  rw [flipped_cells]
  rfl

theorem drawSprite_ofMachine (x y n : Fin 16) :
    drawSprite (m.v x) (m.v y) n (ofMachine log m) =
      match m.rangeFault? n with
      | some fault => .fault fault (ofMachine log m)
      | none => .done () (ofMachine log (m.effect (.draw x y n))) := by
  have hn : (n : Nat) ≤ 16 := Nat.le_of_lt n.isLt
  simp only [drawSprite, bind_apply, indexRange_ofMachine log m hn]
  cases hf : m.rangeFault? n with
  | some fault => rfl
  | none =>
      simp only [setRegister_flag]
      have hbytes : ∀ i < (m.sprite x y n).bytes.length,
          (ofMachine log (m.setV Machine.flagRegister 0)).memory[m.index.toNat + i]? =
            (m.sprite x y n).bytes[i]? := by
        intro i hi
        have hlen : i < n := by simpa [Machine.sprite] using hi
        have hroom := le_of_rangeFault?_eq_none (Nat.zero_lt_of_lt hlen) hf
        have hin : m.index.toNat + i < 4096 := by omega
        simp only [Machine.sprite, Memory.getElem?_slice _ _ hlen, Memory.read]
        change m.memory.bytes[m.index.toNat + i]? = _
        rw [Vector.getElem?_eq_getElem hin, Option.getD_some]
      have hlength : 0 + n.val = (m.sprite x y n).bytes.length := by simp [Machine.sprite]
      have hdraw := drawRows_apply (ofMachine log (m.setV Machine.flagRegister 0))
        (m.sprite x y n) (Nat.mod_lt _ (by decide)) (Nat.mod_lt _ (by decide))
        hlength hbytes
      rw [spriteFrom_zero, flipWhere_ofMachine] at hdraw
      exact hdraw

/-! ## Blocks of memory -/

theorem storeBcd_ofMachine (x : Fin 16) :
    storeBcd x (ofMachine log m) =
      match m.rangeFault? 3 with
      | some fault => .fault fault (ofMachine log m)
      | none => .done .next (ofMachine log (m.effect (.storeBcd x))) := by
  have hthree : 3 ≤ 16 := by decide
  simp only [storeBcd, bind_apply, register_ofMachine, indexRange_ofMachine log m hthree]
  cases hf : m.rangeFault? 3 with
  | some fault => rfl
  | none =>
      have hroom := le_of_rangeFault?_eq_none (by decide) hf
      have hzero : m.index.toNat < 4096 := by omega
      have hone : m.index.toNat + 1 < 4096 := by omega
      have htwo : m.index.toNat + 2 < 4096 := by omega
      have hfits : ∀ k ≤ 2, m.index.toNat + k < sizeValues :=
        fun k hk => lt_sizeValues (by omega)
      simp only [storeByte_ofMachine _ _ hzero, storeByte_ofMachine _ _ hone,
        storeByte_ofMachine _ _ htwo, sum_apply (hfits 1 (by decide)),
        sum_apply (hfits 2 (by decide)), pure_apply]
      rfl

theorem transfer_fits {m : Machine} (x : Fin 16) (hf : m.rangeFault? (x + 1) = none) :
    m.index.toNat + x < sizeValues ∧ m.index.toNat + x + 1 < sizeValues ∧
      m.index.toNat + (x + 1) ≤ 4096 := by
  have hroom := le_of_rangeFault?_eq_none (Nat.succ_pos x) hf
  exact ⟨lt_sizeValues (by omega), lt_sizeValues (by omega), hroom⟩

theorem storeRegisters_ofMachine (x : Fin 16) :
    storeRegisters x (ofMachine log m) =
      match m.rangeFault? (x + 1) with
      | some fault => .fault fault (ofMachine log m)
      | none => .done .next (ofMachine log (m.effect (.storeRegisters x))) := by
  have hx := x.isLt
  have hlen : x.val + 1 ≤ 16 := hx
  have hcount : x.val + 1 < sizeValues := lt_sizeValues (by omega)
  simp only [storeRegisters, bind_apply, sum_apply hcount, indexRange_ofMachine log m hlen]
  cases hf : m.rangeFault? (x + 1) with
  | some fault => rfl
  | none =>
      obtain ⟨hlast, hstop, hroom⟩ := transfer_fits x hf
      have hle : m.index.toNat ≤ m.index.toNat + x + 1 := by omega
      have hlength : (m.registers.toList.take (x + 1)).length =
          m.index.toNat + x + 1 - m.index.toNat := by
        rw [List.length_take, Vector.length_toList, Nat.min_eq_left hlen]
        omega
      have hvalues : ∀ h, slice m.registers 0 (x + 1) h =
          .done (m.registers.toList.take (x + 1)) h :=
        fun h => slice_apply _ (Nat.zero_le _) hlen h
      simp only [sum_apply hlast, sum_apply hstop, look_apply, id_eq, registers_ofMachine,
        memory_ofMachine, hvalues, withSlice_bytes m.memory hle hroom hlength, change_apply,
        pure_apply]
      rfl

theorem loadRegisters_ofMachine (x : Fin 16) :
    loadRegisters x (ofMachine log m) =
      match m.rangeFault? (x + 1) with
      | some fault => .fault fault (ofMachine log m)
      | none => .done .next (ofMachine log (m.effect (.loadRegisters x))) := by
  have hx := x.isLt
  have hlen : x.val + 1 ≤ 16 := hx
  have hcount : x.val + 1 < sizeValues := lt_sizeValues (by omega)
  simp only [loadRegisters, bind_apply, sum_apply hcount, indexRange_ofMachine log m hlen]
  cases hf : m.rangeFault? (x + 1) with
  | some fault => rfl
  | none =>
      obtain ⟨hlast, hstop, hroom⟩ := transfer_fits x hf
      have hlength : (m.memory.slice m.index.toNat (x + 1)).length = x + 1 - 0 := by simp
      have hregisters : (m.registers.mapIdx fun i old =>
          if 0 ≤ i ∧ i < x.val + 1 then
            (m.memory.slice m.index.toNat (x + 1))[i - 0]?.getD old else old) =
          (m.effect (.loadRegisters x)).registers := by
        apply Vector.ext
        intro i hi
        simp only [Machine.effect, Vector.getElem_mapIdx, Nat.zero_le, true_and, Nat.sub_zero,
          Nat.lt_succ_iff]
        split
        · rename_i hle
          rw [Memory.getElem?_slice _ _ (Nat.lt_succ_of_le hle), Option.getD_some]
        · rfl
      simp only [sum_apply hlast, sum_apply hstop, look_apply, id_eq, registers_ofMachine,
        memory_ofMachine, Nat.add_assoc, slice_bytes m.memory hroom,
        withSlice_apply m.registers (Nat.zero_le _) hlen hlength, change_apply, pure_apply]
      rw [hregisters]
      rfl

/-! ## Calls and returns -/

theorem perform_ret (hdepth : m.stack.depth ≤ 16) (hpos : m.stack.depth ≠ 0) :
    perform .ret (ofMachine log m) =
      .done (.jump (m.stack.top + 2)) (ofMachine log (m.effect .ret)) := by
  have hone : 1 ≤ m.stack.depth := Nat.one_le_iff_ne_zero.2 hpos
  have hslot : m.stack.depth - 1 < 16 := by omega
  have htop : m.stack.top = m.stack.slots[m.stack.depth - 1] := by
    simp [CallStack.top, hslot]
  simp only [perform, bind_apply, look_apply, depth_ofMachine, if_apply, if_neg hpos,
    difference_apply hone, change_apply, id_eq, stack_ofMachine, entry_apply _ hslot, pure_apply,
    htop]
  rfl

theorem perform_call (addr : Fin 4096) (hroom : m.stack.depth < 16) :
    perform (.call addr) (ofMachine log m) =
      .done (.jump (.ofNat addr)) (ofMachine log (m.effect (.call addr))) := by
  have hne : m.stack.depth ≠ 16 := Nat.ne_of_lt hroom
  have hfits : m.stack.depth + 1 < sizeValues := lt_sizeValues (by omega)
  simp only [perform, bind_apply, look_apply, id_eq, depth_ofMachine, if_apply, if_neg hne,
    stack_ofMachine, pc_ofMachine, withEntry_apply _ hroom, change_apply, sum_apply hfits,
    pure_apply]
  rfl

/-! ## All instructions -/

theorem perform_of_fault {i : Instruction} {fault : Fault} (hdepth : m.stack.depth ≤ 16)
    (hi : m.fault? i = some fault) :
    perform i (ofMachine log m) = .fault fault (ofMachine log m) := by
  cases i with
  | ret =>
      simp only [Machine.fault?, Option.ite_none_right_eq_some, Option.some.injEq] at hi
      obtain ⟨hempty, rfl⟩ := hi
      simp only [perform, bind_apply, look_apply, depth_ofMachine, if_apply, if_pos hempty,
        raise_apply]
  | call addr =>
      simp only [Machine.fault?, Option.ite_none_right_eq_some, Option.some.injEq] at hi
      obtain ⟨hfull, rfl⟩ := hi
      have hdepth : m.stack.depth = 16 := Nat.le_antisymm hdepth hfull
      simp only [perform, bind_apply, look_apply, id_eq, depth_ofMachine, if_apply,
        if_pos hdepth, raise_apply]
  | draw x y n =>
      have hf : m.rangeFault? n = some fault := hi
      simp only [perform, bind_apply, register_ofMachine, drawSprite_ofMachine, hf]
  | storeBcd x =>
      have hf : m.rangeFault? 3 = some fault := hi
      simp only [perform, storeBcd_ofMachine, hf]
  | storeRegisters x =>
      have hf : m.rangeFault? (x + 1) = some fault := hi
      simp only [perform, storeRegisters_ofMachine, hf]
  | loadRegisters x =>
      have hf : m.rangeFault? (x + 1) = some fault := hi
      simp only [perform, loadRegisters_ofMachine, hf]
  | _ => cases hi

theorem waitForKey_ofMachine (x : Fin 16) :
    waitForKey x (ofMachine log m) =
      match m.keypad.lowest? with
      | some key => .done .next (ofMachine log (m.setV x (.ofNat key)))
      | none => .done .hold (ofMachine (log ++ [.awaitingKey x]) m) := by
  have hlowest : m.keypad.keys.findFinIdx? id = m.keypad.lowest? := rfl
  simp only [waitForKey, bind_apply, look_apply, keypad_ofMachine, hlowest]
  cases m.keypad.lowest? with
  | some key => simp only [bind_apply, setRegister_ofMachine, pure_apply]
  | none => rfl

theorem and_one_eq_flag (b : UInt8) : b &&& 1 = flag (b &&& 1 = 1) := by
  have hbit : (b &&& 1).toNat = b.toNat % 2 := by simp [UInt8.toNat_and, Nat.and_one_is_mod]
  rcases Nat.mod_two_eq_zero_or_one b.toNat with h | h
  · have hzero : b &&& 1 = 0 := UInt8.toNat_inj.1 (hbit.trans h)
    simp [hzero]
  · have hone : b &&& 1 = 1 := UInt8.toNat_inj.1 (hbit.trans h)
    simp [hone]

theorem shiftRight_seven_eq_flag (b : UInt8) : b >>> 7 = flag (128 ≤ b) := by
  have hlt := b.toNat_lt
  have hbit : (b >>> 7).toNat = b.toNat / 128 := by
    simp [UInt8.toNat_shiftRight, Nat.shiftRight_eq_div_pow]
  by_cases h : 128 ≤ b
  · have hle : 128 ≤ b.toNat := h
    have hone : b >>> 7 = 1 := UInt8.toNat_inj.1 (hbit.trans (by simp; omega))
    simp [hone, h]
  · have hle : ¬128 ≤ b.toNat := h
    have hzero : b >>> 7 = 0 := UInt8.toNat_inj.1 (hbit.trans (by simp; omega))
    simp [hzero, h]

theorem ofNat_mul_five (b : UInt8) : UInt16.ofNat (b.toNat * 5) = Font.glyphAddress b := by
  have hb := b.toNat_lt
  apply UInt16.toNat_inj.1
  rw [Font.toNat_glyphAddress, UInt16.toNat_ofNat_of_lt']
  · exact Nat.mul_comm _ _
  · simp only [UInt16.size]
    omega

theorem ofNat_add_v (m : Machine) (addr : Fin 4096) :
    UInt16.ofNat (addr + (m.v 0).toNat) = UInt16.ofNat addr + (m.register 0).toUInt16 := by
  have haddr := addr.isLt
  have hv := (m.v 0).toNat_lt
  have hregister : m.register 0 = m.v 0 := m.register_eq_v 0
  apply UInt16.toNat_inj.1
  rw [Machine.toNat_jumpOffset, hregister, UInt16.toNat_ofNat_of_lt']
  simp only [UInt16.size]
  omega

/-- An instruction that has no fault and does not wait for a key. -/
theorem perform_ofMachine {i : Instruction} (hdepth : m.stack.depth ≤ 16)
    (hi : m.fault? i = none) (hwait : m.awaits? i = none) :
    ∃ flow : Flow, perform i (ofMachine log m) = .done flow (ofMachine log (m.effect i)) ∧
      flow.target m.pc = m.nextPc i := by
  have hskip := target_skipIf m
  cases i with
  | clearScreen =>
      refine ⟨.next, ?_, rfl⟩
      have hblank : (cells m.display).map (fun row => row.map fun _ => 0) = cells .blank := by
        rw [cells_blank]
        apply display_ext
        intro x y hx hy
        simp
      simp only [perform, bind_apply, change_apply, display_ofMachine, hblank, pure_apply]
      rfl
  | ret =>
      have hpos : m.stack.depth ≠ 0 := by simpa [Machine.fault?] using hi
      exact ⟨_, perform_ret log m hdepth hpos, rfl⟩
  | call addr =>
      have hroom : m.stack.depth < 16 := by simpa [Machine.fault?] using hi
      exact ⟨_, perform_call log m addr hroom, rfl⟩
  | jump addr => exact ⟨_, rfl, rfl⟩
  | skipIfEqualByte x kk | skipIfNotEqualByte x kk | skipIfEqual x y | skipIfNotEqual x y =>
      exact ⟨_, skipComparing_ofMachine log m _ _ _, hskip _⟩
  | addByte x kk => exact ⟨_, combine_ofMachine log m x x _, rfl⟩
  | load x y | or x y | and x y | xor x y => exact ⟨_, combine_ofMachine log m x y _, rfl⟩
  | add x y | sub x y | subN x y => exact ⟨_, combineFlagged_ofMachine log m x y _ _ rfl, rfl⟩
  | shiftRight x =>
      exact ⟨_, combineFlagged_ofMachine log m x x _ _ (and_one_eq_flag (m.v x)), rfl⟩
  | shiftLeft x =>
      exact ⟨_, combineFlagged_ofMachine log m x x _ _ (shiftRight_seven_eq_flag (m.v x)), rfl⟩
  | loadIndex addr => exact ⟨_, rfl, rfl⟩
  | waitForKey x =>
      cases hkey : m.keypad.lowest? with
      | some key =>
          refine ⟨.next, ?_, ?_⟩
          · simp only [perform, waitForKey_ofMachine, hkey, Machine.effect]
          · simp [Flow.target, Machine.nextPc, hkey]
      | none => simp [Machine.awaits?, hkey] at hwait
  | storeBcd x =>
      have hf : m.rangeFault? 3 = none := hi
      refine ⟨.next, ?_, rfl⟩
      simp only [perform, storeBcd_ofMachine, hf]
  | storeRegisters x =>
      have hf : m.rangeFault? (x + 1) = none := hi
      refine ⟨.next, ?_, rfl⟩
      simp only [perform, storeRegisters_ofMachine, hf]
  | loadRegisters x =>
      have hf : m.rangeFault? (x + 1) = none := hi
      refine ⟨.next, ?_, rfl⟩
      simp only [perform, loadRegisters_ofMachine, hf]
  | draw x y n =>
      have hf : m.rangeFault? n = none := hi
      refine ⟨.next, ?_, rfl⟩
      simp only [perform, bind_apply, register_ofMachine, drawSprite_ofMachine, hf, pure_apply]
  | skipIfKeyPressed x =>
      refine ⟨_, skipOnKey_ofMachine log m x true, ?_⟩
      rw [hskip, beq_true]
      rfl
  | skipIfKeyNotPressed x =>
      refine ⟨_, skipOnKey_ofMachine log m x false, ?_⟩
      rw [hskip, beq_false]
      rfl
  | jumpOffset addr =>
      have haddr := addr.isLt
      have hv := (m.v 0).toNat_lt
      have hfits : addr.val + (m.v 0).toNat < wordValues := by
        unfold wordValues
        omega
      refine ⟨.jump (.ofNat (addr.val + (m.v 0).toNat)), ?_, ?_⟩
      · have hzero : register 0 (ofMachine log m) = .done (m.v 0) (ofMachine log m) :=
          register_ofMachine log m 0
        simp only [perform, bind_apply, hzero, sum_apply hfits, pure_apply]
        rfl
      · exact ofNat_add_v m addr
  | addIndex x =>
      refine ⟨.next, ?_, rfl⟩
      simp only [perform, bind_apply, look_apply, id_eq, register_ofMachine, setRegister_flag,
        index_ofMachine, change_apply, pure_apply]
      rfl
  | loadGlyph x =>
      have hv := (m.v x).toNat_lt
      have hfits : (m.v x).toNat * 5 < wordValues := by
        unfold wordValues
        omega
      refine ⟨.next, ?_, rfl⟩
      simp only [perform, bind_apply, register_ofMachine, product_apply hfits, change_apply,
        ofNat_mul_five, pure_apply]
      rfl
  | random x kk =>
      have hset : setRegister x (m.random.byte &&& kk)
          { ofMachine log m with random := m.random.advance } =
          .done () (ofMachine log (m.effect (.random x kk))) :=
        setRegister_ofMachine log { m with random := m.random.advance } x _
      refine ⟨.next, ?_, rfl⟩
      simp only [perform, bind_apply, look_apply, change_apply, random_ofMachine, hset, pure_apply]
  | loadByte x kk =>
      refine ⟨.next, ?_, rfl⟩
      simp only [perform, bind_apply, setRegister_ofMachine, pure_apply]
      rfl
  | loadDelayTimer x =>
      refine ⟨.next, ?_, rfl⟩
      simp only [perform, bind_apply, look_apply, setRegister_ofMachine, pure_apply]
      rfl
  | setDelayTimer x | setSoundTimer x =>
      refine ⟨.next, ?_, rfl⟩
      simp only [perform, bind_apply, register_ofMachine, change_apply, pure_apply]
      rfl

theorem pc_effect (i : Instruction) : (m.effect i).pc = m.pc := by
  cases i with
  | waitForKey x =>
      simp only [Machine.effect]
      split
      · rfl
      · rfl
  | _ => rfl

theorem execute_ofMachine {i : Instruction} (hdepth : m.stack.depth ≤ 16)
    (hi : m.fault? i = none) :
    execute i (ofMachine log m) =
      .done () (ofMachine (log ++ (m.awaits? i).toList.map .awaitingKey)
        { m.effect i with pc := m.nextPc i }) := by
  cases hwait : m.awaits? i with
  | none =>
      obtain ⟨flow, hperform, htarget⟩ := perform_ofMachine log m hdepth hi hwait
      simp only [execute, bind_apply, hperform, change_apply, pc_ofMachine, pc_effect, htarget,
        Option.toList_none, List.map_nil, List.append_nil]
      rfl
  | some x =>
      obtain ⟨rfl, hkey⟩ : i = .waitForKey x ∧ m.keypad.lowest? = none := by
        cases i with
        | waitForKey y => simpa [Machine.awaits?, and_comm] using hwait
        | _ => cases hwait
      have hperform : perform (.waitForKey x) (ofMachine log m) =
          .done .hold (ofMachine (log ++ [.awaitingKey x]) m) := by
        simp only [perform, waitForKey_ofMachine, hkey]
      simp only [execute, bind_apply, hperform, change_apply, Machine.effect, Machine.nextPc, hkey]
      rfl

theorem execute_of_awaits?_eq_none {i : Instruction} (hdepth : m.stack.depth ≤ 16)
    (hi : m.fault? i = none) (hwait : m.awaits? i = none) :
    execute i (ofMachine log m) =
      .done () (ofMachine log { m.effect i with pc := m.nextPc i }) := by
  rw [execute_ofMachine log m hdepth hi, hwait, Option.toList_none, List.map_nil, List.append_nil]

theorem execute_of_fault {i : Instruction} {fault : Fault} (hdepth : m.stack.depth ≤ 16)
    (hi : m.fault? i = some fault) :
    execute i (ofMachine log m) = .fault fault (ofMachine log m) := by
  rw [execute, bind_of_fault (perform_of_fault log m hdepth hi)]

end Chip8.Hardware
