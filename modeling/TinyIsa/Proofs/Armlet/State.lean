import Mathlib
import TinyIsa.Proofs.Armlet.Reference
import TinyIsa.Proofs.Machine.History

/-!
# Armlet machines in numbers

* `State.toMachine`, `State.ofMachine`: from numbers to a machine and back.
* `toMachine_ofMachine`: nothing is lost when the machine is well formed; `wellFormed_toMachine`: the
  machine of some numbers is.
* `get?_registers`, `setRegister_toMachine`, `readMemory_toMachine`, `writeMemory_toMachine`: the
  machine is read and written as its numbers are.
-/

namespace TinyIsa

/-- A word of the width of a cell is stored as it is. -/
theorem Word.operand_self {w : ℕ} (y : BitVec w) : Word.operand w ⟨w, y⟩ = y := BitVec.signExtend_eq y

theorem Word.store_self {w : ℕ} (x y : BitVec w) : Word.store ⟨w, x⟩ ⟨w, y⟩ = ⟨w, y⟩ :=
  congrArg (Word.mk w) (Word.operand_self y)

theorem Register.store_self (name : String) {w : ℕ} (x y : BitVec w) :
    Register.store { name, value := ⟨w, x⟩ } ⟨w, y⟩ = { name, value := ⟨w, y⟩ } := by
  unfold Register.store
  rw [if_neg (by simp), Word.store_self]

namespace Armlet

/-! ### Register names -/

/-- The numbers of the registers. -/
def indices : List (BitVec 3) := [0, 1, 2, 3, 4, 5, 6, 7]

theorem mem_indices (r : BitVec 3) : r ∈ indices := by
  revert r
  decide

theorem registerName_inj {q r : BitVec 3} (h : registerName q.toNat = registerName r.toNat) : q = r := by
  revert q r
  decide

theorem registerName_ne_counter (r : BitVec 3) : counterName ≠ registerName r.toNat := by
  revert r
  decide

theorem registerName_ne_flags (r : BitVec 3) : flagsName ≠ registerName r.toNat := by
  revert r
  decide

namespace State

variable {σ : Type}

/-! ### From numbers to a machine -/

/-- The bank with the numbers of a state. -/
def registers (s : State σ) : Registers :=
  ⟨{ name := counterName, value := ⟨16, s.pc⟩ } ::
    indices.map (fun r => { name := registerName r.toNat, value := ⟨16, s.read r⟩, hardwired := r == 0 }) ++
    [{ name := flagsName, value := ⟨3, s.flags⟩ }]⟩

/-- The memory with the given numbers. Irreducible: it is read through `size_cells` and
`getElem?_cells`, never by opening so long an array. -/
@[irreducible]
def cells (memory : BitVec 16 → BitVec 16) : Array Word :=
  Array.ofFn fun i : Fin (2 ^ 16) => ⟨16, memory (BitVec.ofFin i)⟩

/-- The machine with the numbers of a state. -/
def toMachine (s : State σ) : Machine Op σ where
  registers := s.registers
  memory := cells s.memory
  loaded := s.loaded
  status := s.status
  host := s.host
  output := s.output
  steps := s.steps

/-- The number in a register, zero if there is none. -/
def number (w : ℕ) (value : Option Word) : BitVec w := BitVec.ofNat w (value.elim 0 Word.toNat)

/-- The numbers of a machine. -/
def ofMachine (m : Machine Op σ) : State σ where
  pc := number 16 (m.registers.get? counterName)
  register r := number 16 (m.registers.get? (registerName r.toNat))
  flags := number 3 (m.registers.get? flagsName)
  memory x := number 16 m.memory[x.toNat]?
  loaded := m.loaded
  status := m.status
  host := m.host
  output := m.output
  steps := m.steps

theorem number_some {w : ℕ} (x : BitVec w) : number w (some ⟨w, x⟩) = x :=
  (BitVec.ofNat_toNat w x).trans (BitVec.setWidth_eq x)

theorem status_toMachine (s : State σ) : s.toMachine.status = s.status := rfl

theorem host_toMachine (s : State σ) : s.toMachine.host = s.host := rfl

/-- The operation of a program that begins with some word. -/
theorem op_ofMachine {m : Machine Op σ} {x : BitVec 16} {rest : List Word} (hpc : (ofMachine m).pc = 0)
    (hmemory : m.memory = ([Word.mk 16 x] ++ rest).toArray) :
    (ofMachine m).op = operation (x.extractLsb' 10 6).toNat := by
  have hword : (ofMachine m).word = x := by
    unfold word
    rw [hpc]
    change number 16 m.memory[0]? = x
    rw [hmemory]
    exact number_some x
  unfold op
  rw [hword]

/-- The names of the registers are those of the architecture, each once. -/
theorem names_registers (s : State σ) : (s.registers.toList.map Register.name).Nodup := by
  have h : (s.registers.toList.map Register.name) =
      counterName :: indices.map (fun r => registerName r.toNat) ++ [flagsName] := rfl
  rw [h]
  decide

theorem shape_registers (s : State σ) :
    s.registers.shape = (Registers.ofSpecs (Machine.registerSpecs Op)).shape := by
  rfl

/-- The value in a register of a well-formed machine. -/
theorem get?_of_mem_registers {m : Machine Op σ} (h : m.WellFormed) {r : Register}
    (hr : r ∈ (ofMachine m).registers.toList) :
    ∃ x : BitVec r.value.width, m.registers.get? r.name = some ⟨r.value.width, x⟩ ∧
      (r.hardwired = true → x = 0) := by
  have hshape := (shape_registers (ofMachine m)).trans h.shape.symm
  have hnames : (m.registers.toList.map Register.name).Nodup := by
    rw [← Registers.names_shape, ← hshape, Registers.names_shape]
    exact names_registers _
  have hmem : (r.name, r.value.width, r.hardwired) ∈ m.registers.shape := by
    rw [← hshape]
    exact List.mem_map.2 ⟨r, hr, rfl⟩
  obtain ⟨x, hx, hz⟩ := Registers.get?_of_mem_shape hnames hmem
  exact ⟨x, hx, hz h.grounded⟩

theorem registers_ofMachine {m : Machine Op σ} (h : m.WellFormed) :
    (ofMachine m).registers = m.registers := by
  refine Registers.eq_of_get? ((shape_registers _).trans h.shape.symm) (names_registers _) ?_
  intro r hr
  obtain ⟨x, hx, hz⟩ := get?_of_mem_registers h hr
  rw [Registers.get?_of_mem (names_registers _) hr, hx]
  have hr' := hr
  simp only [registers, List.mem_append, List.mem_cons, List.mem_map, List.not_mem_nil, or_false] at hr'
  -- the program counter, a register with a number, or the flags
  rcases hr' with (rfl | ⟨q, -, rfl⟩) | rfl
  · change some (Word.mk 16 (number 16 (m.registers.get? counterName))) = _
    rw [hx, number_some]
  · change some (Word.mk 16 (read (ofMachine m) q)) = _
    unfold read
    by_cases hq : q = 0
    · rw [if_pos hq, hz (by simp [hq])]
    · rw [if_neg hq]
      change some (Word.mk 16 (number 16 (m.registers.get? (registerName q.toNat)))) = _
      rw [hx, number_some]
  · change some (Word.mk 3 (number 3 (m.registers.get? flagsName))) = _
    rw [hx, number_some]

theorem size_cells (memory : BitVec 16 → BitVec 16) : (cells memory).size = 2 ^ 16 := by
  unfold cells
  exact Array.size_ofFn

theorem getElem?_cells (memory : BitVec 16 → BitVec 16) (x : BitVec 16) :
    (cells memory)[x.toNat]? = some ⟨16, memory x⟩ := by
  unfold cells
  rw [Array.getElem?_ofFn, dif_pos x.isLt]
  rfl

theorem cells_ofMachine {m : Machine Op σ} (h : m.WellFormed) :
    cells (ofMachine m).memory = m.memory := by
  have hsize : m.memory.size = 2 ^ 16 := h.size
  -- within the memory an index is the number of an address
  refine Array.ext_getElem? fun i => ?_
  by_cases hi : i < 2 ^ 16
  · obtain ⟨x, rfl⟩ : ∃ x : BitVec 16, x.toNat = i := ⟨BitVec.ofNat 16 i, Nat.mod_eq_of_lt hi⟩
    have hx := Array.getElem?_eq_getElem (hi.trans_eq hsize.symm)
    have hw := h.cells _ (Array.getElem_mem (hi.trans_eq hsize.symm))
    rw [getElem?_cells, hx]
    change some (Word.mk 16 (number 16 m.memory[x.toNat]?)) = _
    rw [hx]
    generalize m.memory[x.toNat] = w at hw
    obtain ⟨width, y⟩ := w
    cases hw
    exact congrArg (fun z => some (Word.mk 16 z)) (number_some y)
  · rw [Array.getElem?_eq_none (by rw [size_cells]; omega), Array.getElem?_eq_none (by omega)]

/-- **A well-formed machine is given by its numbers.** -/
theorem toMachine_ofMachine {m : Machine Op σ} (h : m.WellFormed) : (ofMachine m).toMachine = m := by
  have h1 := registers_ofMachine h
  have h2 := cells_ofMachine h
  unfold toMachine
  rw [h1, h2]
  rfl

/-- **Numbers make a well-formed machine**, whatever they are. -/
theorem wellFormed_toMachine (s : State σ) (hl : s.loaded ≤ 2 ^ 16) : s.toMachine.WellFormed where
  shape := shape_registers s
  grounded r hr hw := by
    change r ∈ s.registers.toList at hr
    simp only [registers, List.mem_append, List.mem_cons, List.mem_map, List.not_mem_nil, or_false] at hr
    rcases hr with (rfl | ⟨q, -, rfl⟩) | rfl
    · exact absurd hw Bool.false_ne_true
    · obtain rfl : q = 0 := beq_iff_eq.1 hw
      rfl
    · exact absurd hw Bool.false_ne_true
  size := size_cells s.memory
  cells w hw := by
    obtain ⟨i, hi, rfl⟩ := Array.getElem_of_mem hw
    change i < (cells s.memory).size at hi
    have hlt : i < 2 ^ 16 := hi.trans_eq (size_cells s.memory)
    have hcell := getElem?_cells s.memory (BitVec.ofNat 16 i)
    rw [BitVec.toNat_ofNat, Nat.mod_eq_of_lt hlt, Array.getElem?_eq_getElem hi] at hcell
    exact congrArg Word.width (Option.some.inj hcell)
  loaded_le := hl

/-! ### Registers -/

theorem get?_registers (s : State σ) (r : BitVec 3) :
    s.registers.get? (registerName r.toNat) = some ⟨16, s.read r⟩ :=
  Registers.get?_of_mem (names_registers s) (r := ⟨registerName r.toNat, ⟨16, s.read r⟩, r == 0⟩)
    (List.mem_append_left _ (List.mem_cons_of_mem _ (List.mem_map_of_mem (mem_indices r))))

theorem get?_flags (s : State σ) : s.registers.get? flagsName = some ⟨3, s.flags⟩ :=
  Registers.get?_of_mem (names_registers s) (r := ⟨flagsName, ⟨3, s.flags⟩, false⟩)
    (List.mem_append_right _ List.mem_cons_self)

theorem pc_toMachine (s : State σ) : s.toMachine.pc = s.pc.toNat := by
  have h : s.registers.get? counterName = some ⟨16, s.pc⟩ :=
    Registers.get?_of_mem (names_registers s) (r := ⟨counterName, ⟨16, s.pc⟩, false⟩)
      (List.mem_append_left _ List.mem_cons_self)
  unfold Machine.pc
  change (s.registers.get? counterName).elim 0 Word.toNat = _
  rw [h]
  rfl

theorem read_write (s : State σ) (q r : BitVec 3) (v : BitVec 16) :
    (s.write r v).read q = if q = 0 then 0 else if q = r then v else s.read q := by
  unfold read write
  by_cases hq : q = 0
  · rw [if_pos hq, if_pos hq]
  rw [if_neg hq, if_neg hq, if_neg hq]
  by_cases hr : r = 0
  · rw [if_pos hr, if_neg (hr ▸ hq)]
  · rw [if_neg hr]
    exact Function.update_apply _ _ _ _

/-- A register is written as its number is. -/
theorem modify_registers (s : State σ) (r : BitVec 3) (v : BitVec 16) :
    s.registers.modify (registerName r.toNat) (·.store ⟨16, v⟩) = (s.write r v).registers := by
  have h := agree_write s r v
  have hpc : (counterName == registerName r.toNat) = false := by
    simpa using registerName_ne_counter r
  have hflags : (flagsName == registerName r.toNat) = false := by
    simpa using registerName_ne_flags r
  unfold registers Registers.modify
  rw [List.map_append, List.map_cons, List.map_cons, List.map_map, h.pc, h.flags]
  simp only [hpc, hflags, Bool.false_eq_true, if_false, List.map_nil]
  congr 3
  -- of the registers only the one of the name is written, and the first one takes nothing
  refine List.map_congr_left fun q _ => ?_
  simp only [Function.comp_apply, beq_iff_eq]
  rw [read_write]
  by_cases hqr : q = r
  · subst hqr
    rw [if_pos rfl, if_pos rfl]
    unfold Register.store
    by_cases hq : q = 0
    · subst hq
      rfl
    · rw [if_neg (by simpa using hq), if_neg hq, Word.store_self]
  · rw [if_neg fun he => hqr (registerName_inj he), if_neg hqr]
    congr 2
    by_cases hq : q = 0
    · rw [if_pos hq, hq]
      rfl
    · rw [if_neg hq]

theorem modify_flags (s : State σ) (f : BitVec 3) :
    s.registers.modify flagsName (·.store ⟨3, f⟩) = registers { s with flags := f } := by
  have hindices : ∀ r : BitVec 3, (registerName r.toNat == flagsName) = false := fun r => by
    simpa using (registerName_ne_flags r).symm
  have hpc : (counterName == flagsName) = false := by decide
  unfold registers Registers.modify
  rw [List.map_append, List.map_cons, List.map_cons, List.map_map]
  simp only [hpc, hindices, Function.comp_def, Bool.false_eq_true, if_false, beq_self_eq_true, if_true,
    List.map_nil, Register.store_self]
  rfl

theorem modify_counter (s : State σ) (x : BitVec 16) :
    s.registers.modify counterName (·.store ⟨16, x⟩) = registers { s with pc := x } := by
  have hindices : ∀ r : BitVec 3, (registerName r.toNat == counterName) = false := fun r => by
    simpa using (registerName_ne_counter r).symm
  have hflags : (flagsName == counterName) = false := by decide
  unfold registers Registers.modify
  rw [List.map_append, List.map_cons, List.map_cons, List.map_map]
  simp only [hflags, hindices, Function.comp_def, Bool.false_eq_true, if_false, beq_self_eq_true, if_true,
    List.map_nil, Register.store_self]
  rfl

/-- **Writing a register of the machine** writes its number. -/
theorem setRegister_toMachine (s : State σ) (r : BitVec 3) (v : BitVec 16) :
    (s.toMachine.setRegister (registerName r.toNat) ⟨16, v⟩).2 = (s.write r v).toMachine := by
  have h : (s.write r v).toMachine = { s.toMachine with registers := (s.write r v).registers } := by
    unfold write
    by_cases hr : r = 0
    · rw [if_pos hr]; rfl
    · rw [if_neg hr]; rfl
  rw [h, ← modify_registers]
  rfl

theorem setFlags_toMachine (s : State σ) (f : BitVec 3) :
    (s.toMachine.setRegister flagsName ⟨3, f⟩).2 = toMachine { s with flags := f } := by
  have h := modify_flags s f
  unfold toMachine
  rw [← h]
  rfl

theorem setPc_toMachine (s : State σ) (n : ℕ) :
    s.toMachine.setPc n = toMachine { s with pc := BitVec.ofNat 16 n } := by
  have h := modify_counter s (BitVec.ofNat 16 n)
  unfold toMachine
  rw [← h]
  rfl

/-! ### Memory -/

theorem readMemory_toMachine (s : State σ) (x : BitVec 16) :
    s.toMachine.readMemory x.toNat = ⟨16, s.memory x⟩ := by
  unfold Machine.readMemory
  change (cells s.memory)[x.toNat % (cells s.memory).size]?.getD _ = _
  rw [size_cells, Nat.mod_eq_of_lt x.isLt, getElem?_cells]
  rfl

theorem modify_cells (memory : BitVec 16 → BitVec 16) (x v : BitVec 16) :
    (cells memory).modify x.toNat (·.store ⟨16, v⟩) = cells (Function.update memory x v) := by
  refine Array.ext_getElem? fun i => ?_
  rw [Array.getElem?_modify]
  by_cases hi : i < 2 ^ 16
  · obtain ⟨y, rfl⟩ : ∃ y : BitVec 16, y.toNat = i := ⟨BitVec.ofNat 16 i, Nat.mod_eq_of_lt hi⟩
    rw [getElem?_cells, getElem?_cells]
    by_cases hxy : x = y
    · subst hxy
      rw [if_pos rfl, Option.map_some, Word.store_self, Function.update_self]
    · rw [if_neg fun h => hxy (BitVec.eq_of_toNat_eq h), Function.update_of_ne (Ne.symm hxy)]
  · rw [Array.getElem?_eq_none (by rw [size_cells]; omega),
      Array.getElem?_eq_none (by rw [size_cells]; omega)]
    exact ite_self none

/-- **Writing a cell of the machine** writes its number. -/
theorem writeMemory_toMachine (s : State σ) (x v : BitVec 16) :
    s.toMachine.writeMemory x.toNat ⟨16, v⟩ =
      toMachine { s with memory := Function.update s.memory x v } := by
  have h := modify_cells s.memory x v
  have hx : x.toNat % (cells s.memory).size = x.toNat := by
    rw [size_cells, Nat.mod_eq_of_lt x.isLt]
  unfold Machine.writeMemory toMachine
  simp only [hx, h]
  rfl

/-- The cells at the program counter and behind it, where zero stands behind the end of the
memory. -/
theorem cell_toMachine (s : State σ) :
    Instruction.cell Op (cells s.memory) s.pc.toNat = ⟨16, s.word⟩ ∧
      Instruction.cell Op (cells s.memory) (s.pc.toNat + 1) = ⟨16, s.second⟩ := by
  have hpc := s.pc.isLt
  unfold Instruction.cell second
  refine ⟨by rw [getElem?_cells]; rfl, ?_⟩
  -- only behind the last cell there is nothing
  by_cases h : s.pc = 65535
  · rw [if_pos h, Array.getElem?_eq_none (by rw [size_cells, h]; decide)]
    rfl
  · have hne : s.pc.toNat ≠ 65535 := fun he => h (BitVec.eq_of_toNat_eq he)
    have hnext : (s.pc + 1).toNat = s.pc.toNat + 1 := by
      rw [BitVec.toNat_add]
      exact Nat.mod_eq_of_lt (by change s.pc.toNat + 1 < 2 ^ 16; omega)
    rw [if_neg h, ← hnext, getElem?_cells]
    rfl

/-! ### The host -/

theorem heed_toMachine (s : State σ) (g : Signal) : s.toMachine.heed g = (s.heed g).toMachine := by
  cases g <;> rfl

variable [Host σ]

theorem output_toMachine (s : State σ) (text : String) :
    (s.toMachine.interrupt (.output text)).2 = (s.print text).toMachine :=
  heed_toMachine { s with host := (Host.output text s.host).2, output := s.output.push text }
    (Host.output text s.host).1

theorem alert_toMachine (s : State σ) (message : String) :
    (s.toMachine.interrupt (.alert message)).2 = (s.alert message).toMachine :=
  heed_toMachine { s with host := (Host.alert message s.host).2 } (Host.alert message s.host).1

theorem halt_toMachine (s : State σ) : s.toMachine.halt = s.halt.toMachine := by
  unfold Machine.halt halt
  by_cases h : s.status = .terminated
  · have hm : s.toMachine.status = .terminated := h
    rw [if_pos hm, if_pos h]
  · have hm : s.toMachine.status ≠ .terminated := h
    rw [if_neg hm, if_neg h]
    rfl

end State

end Armlet

end TinyIsa
