/-
# The DMA page after my_remove (11/homework)

`my_remove` frees the DMA page and does not wait for the third transfer. Whatever
state the card was in when the device was bound, the registers of that transfer are
those that `my_probe` has written, and the handlers, which may write to `CMD`, are
gone when the page is freed. So the card stores nothing on the freed page, whatever
follows, if and only if the transfer is over or has stored all its bytes when
`dma_free_coherent` is called (`freed_page_iff`).
-/
import Pb173.Transfer

namespace Pb173
namespace FreedPage

open Dma Transfer

/-- The device is bound, in any state of the card and with tasklets left over; the
last call of `my_remove` has taken the handlers down. -/
def rebound (eng : Engine) (raised : BitVec 32) (queued : ℕ) : World :=
  ⟨{ eng with freed := false, stale := false }, raised, false, [], queued, [], []⟩

/-! ### Commands -/

/-- The command stores to the bus. -/
structure ToBus (c : BitVec 32) : Prop where
  four : c.getLsbD 4 = false
  five : c.getLsbD 5 = true
  six : c.getLsbD 6 = false

theorem ToBus.code {c : BitVec 32} (h : ToBus c) : (c >>> 4) &&& 7 = 2 := by
  have hseven : ∀ i < 32, 3 ≤ i → (7 : BitVec 32).getLsbD i = false := by decide
  have htwo : ∀ i < 32, 3 ≤ i → (2 : BitVec 32).getLsbD i = false := by decide
  apply BitVec.eq_of_getLsbD_eq
  intro i hi
  rw [BitVec.getLsbD_and, BitVec.getLsbD_ushiftRight]
  rcases i with _ | _ | _ | i
  · rw [h.four]
    rfl
  · rw [h.five]
    rfl
  · rw [h.six]
    rfl
  · rw [hseven _ hi (by omega), htwo _ hi (by omega), Bool.and_false]

theorem ToBus.ackint {c : BitVec 32} (h : ToBus c) : ToBus (c ||| 1 <<< 31) := by
  constructor <;> rw [BitVec.getLsbD_or]
  · rw [h.four]
    rfl
  · rw [h.five]
    rfl
  · rw [h.six]
    rfl

theorem ToBus.complete {c : BitVec 32} (h : ToBus c) : ToBus (c &&& ~~~1) := by
  constructor <;> rw [BitVec.getLsbD_and]
  · rw [h.four]
    rfl
  · rw [h.five]
    rfl
  · rw [h.six]
    rfl

/-! ### Assertions -/

variable {phys : BitVec 32} {x y : World}

/-- What is said of the registers of the transfer. -/
structure Kept (C : Engine → Prop) : Prop where
  cmd : ∀ z c, C z → C { z with cmd := c }
  again : ∀ z, C z → C { z with sent := 0 }
  byte : ∀ z : Engine, z.sent < z.count.toNat → C z → ∀ bus ram stale,
    C { z with bus := bus, ram := ram, stale := stale, sent := z.sent + 1 }

/-- The page is not freed. Handlers run only if `irq`; the commands store to the bus
if `bus`. -/
structure Bound (irq bus : Bool) (C : Engine → Prop) (x : World) : Prop where
  alone : irq = false → x.irq = false ∧ x.invs = []
  freed : x.eng.freed = false
  stale : x.eng.stale = false
  cmd : bus = true → ToBus x.eng.cmd
  acks : bus = true → ∀ c, .ackint c ∈ x.invs → ToBus c
  eng : C x.eng

/-- The registers of the third transfer. -/
structure Third (phys : BitVec 32) (z : Engine) : Prop where
  dst : z.dst = behind phys 20
  count : z.count = 10
  sent : z.sent ≤ 10

theorem kept_true : Kept fun _ => True :=
  ⟨fun _ _ _ => trivial, fun _ _ => trivial, fun _ _ _ _ _ _ => trivial⟩

theorem kept_dst (a : BitVec 32) : Kept fun z => z.dst = a :=
  ⟨fun _ _ h => h, fun _ h => h, fun _ _ h _ _ _ => h⟩

theorem kept_count (a n : BitVec 32) : Kept fun z => z.dst = a ∧ z.count = n :=
  ⟨fun _ _ h => h, fun _ h => h, fun _ _ h _ _ _ => h⟩

theorem kept_third : Kept (Third phys) where
  cmd _ _ h := ⟨h.dst, h.count, h.sent⟩
  again _ h := ⟨h.dst, h.count, Nat.zero_le _⟩
  byte z hlt h _ _ _ := by
    rw [h.count] at hlt
    exact ⟨h.dst, h.count, hlt⟩

/-- A byte changes a memory, and `stale` only where the page has been freed. -/
theorem byte_spec (phys : BitVec 32) (z : Engine) : ∃ bus ram stale,
    z.byte phys = { z with bus := bus, ram := ram, stale := stale, sent := z.sent + 1 } ∧
      (z.freed = false → stale = z.stale) := by
  unfold Engine.byte Engine.store
  split_ifs
  · refine ⟨_, _, _, rfl, fun hf => ?_⟩
    rw [hf, Bool.false_and, Bool.or_false]
  · exact ⟨_, _, _, rfl, fun _ => rfl⟩
  · exact ⟨_, _, _, rfl, fun _ => rfl⟩

theorem command_spec (z : Engine) (c : BitVec 32) : z.command c = { z with cmd := c } ∨
    z.command c = { z with cmd := c, sent := 0 } := by
  unfold Engine.command
  split_ifs
  · exact .inr rfl
  · exact .inl rfl

section Environment

variable {irq bus : Bool} {C : Engine → Prop}

/-- The engine, the interrupt and the handlers tell the assertion. -/
theorem Bound.congr (h : Bound irq bus C x) (he : y.eng = x.eng) (hi : y.irq = x.irq)
    (hv : y.invs = x.invs) : Bound irq bus C y where
  alone ha := by
    rw [hi, hv]
    exact h.alone ha
  freed := he ▸ h.freed
  stale := he ▸ h.stale
  cmd hb := he ▸ h.cmd hb
  acks hb := hv ▸ h.acks hb
  eng := he ▸ h.eng

theorem Bound.command (h : Bound irq bus C x) (hC : Kept C) {c : BitVec 32}
    (hc : bus = true → ToBus c) : Bound irq bus C { x with eng := x.eng.command c } := by
  rcases command_spec x.eng c with he | he <;> rw [he]
  · exact ⟨h.alone, h.freed, h.stale, hc, h.acks, hC.cmd _ c h.eng⟩
  · exact ⟨h.alone, h.freed, h.stale, hc, h.acks, hC.again _ (hC.cmd _ c h.eng)⟩

theorem Bound.perform (h : Bound irq bus C x) (hC : Kept C) {pc : Handler} (hpc : pc ∈ x.invs) :
    Bound irq bus C (x.perform pc.act) := by
  cases pc with
  | ackint c => exact h.command hC fun hb => (h.acks hb c hpc).ackint
  | virt | raised | ack _ | cmd | init | schedule | ret _ => exact h.congr rfl rfl rfl

theorem Bound.next (h : Bound irq bus C x) (hb : bus = true) {pc : Handler} {c : BitVec 32}
    (hn : pc.next (x.reading pc.act) = some (.ackint c)) : ToBus c := by
  cases pc with
  | cmd =>
    obtain rfl := Handler.ackint.inj (Option.some.inj hn)
    exact h.cmd hb
  | raised =>
    simp only [Handler.next, Option.some.injEq] at hn
    split_ifs at hn
  | ack v =>
    simp only [Handler.next, Option.some.injEq] at hn
    split_ifs at hn
  | virt | ackint _ | init | schedule | ret _ => cases hn

theorem stable_bound (hC : Kept C) : Stable (env phys) (Bound irq bus C) := by
  intro x e y h he
  cases e with
  | byte =>
    simp only [env] at he
    split_ifs at he with hgo
    obtain rfl := Option.some.inj he
    obtain ⟨b, r, s, heng, hs⟩ := byte_spec phys x.eng
    rw [heng]
    exact ⟨h.alone, h.freed, (hs h.freed).trans h.stale, h.cmd, h.acks,
      hC.byte _ hgo.2 h.eng b r s⟩
  | complete =>
    simp only [env] at he
    split_ifs at he with _ h7 <;> obtain rfl := Option.some.inj he <;>
      exact ⟨h.alone, h.freed, h.stale, fun hb => (h.cmd hb).complete, h.acks, hC.cmd _ _ h.eng⟩
  | tick =>
    obtain rfl := Option.some.inj he
    exact h.congr rfl rfl rfl
  | irq =>
    simp only [env] at he
    split_ifs at he with hi
    obtain rfl := Option.some.inj he
    refine ⟨fun ha => ?_, h.freed, h.stale, h.cmd, fun hb c hc => ?_, h.eng⟩
    · rw [(h.alone ha).1] at hi
      cases hi
    · rcases List.mem_append.mp hc with hc | hc
      · exact h.acks hb c hc
      · cases List.mem_singleton.mp hc
  | handler i =>
    simp only [env] at he
    split at he
    · cases he
    rename_i pc hi
    have hmem := List.mem_of_getElem? hi
    have hp := h.perform hC hmem
    have halone : irq = false → False := fun ha => by
      rw [(h.alone ha).2] at hmem
      cases hmem
    split at he <;> obtain rfl := Option.some.inj he
    · rename_i pc' hn
      refine ⟨fun ha => (halone ha).elim, hp.freed, hp.stale, hp.cmd, fun hb c hc => ?_, hp.eng⟩
      rcases List.mem_or_eq_of_mem_set hc with hc | rfl
      · exact h.acks hb c hc
      · exact h.next hb hn
    · exact ⟨fun ha => (halone ha).elim, hp.freed, hp.stale, hp.cmd,
        fun hb c hc => h.acks hb c (List.mem_of_mem_eraseIdx hc), hp.eng⟩
  | tasklet =>
    simp only [env] at he
    split_ifs at he <;> obtain rfl := Option.some.inj he <;> exact h.congr rfl rfl rfl

end Environment

/-! ### The outline of the driver -/

/-- What holds before the page is freed. -/
def Before (phys : BitVec 32) : Stmt → World → Prop
  | .inr .dma_free_coherent, x => Bound false true (Third phys) x
  | _, _ => True

/-- An outline for a part of the driver. -/
abbrev Outlined (phys : BitVec 32) : (World → Prop) → List Stmt → (World → Prop) → Prop :=
  Outline (exec phys) (env phys) (fun _ => True) (Before phys) fun _ => True

/-- Statements of `my_probe` that start no transfer, and those that do as long as nothing
is said of the commands. -/
def plain (bus : Bool) : Probe → Bool
  | .request_irq => false
  | .writel _ .CMD => !bus
  | _ => true

section Program

variable {irq bus : Bool} {C : Engine → Prop}

theorem leads_plain {st : Probe} (h : plain bus st = true) :
    Leads (exec phys) (.inl st) (Bound irq bus fun _ => True) (Bound irq bus fun _ => True)
      fun _ => True := by
  intro x err y k hx hy
  simp only [exec] at hy
  split_ifs at hy
  · obtain ⟨rfl, rfl⟩ := Prod.mk.inj (Option.some.inj hy)
    trivial
  have hy := Option.some.inj hy
  cases st with
  | request_irq => cases h
  | writel w r =>
    obtain ⟨rfl, rfl⟩ := Prod.mk.inj hy
    cases r with
    | CMD =>
      have hb : bus = false := by simpa [plain] using h
      exact hx.command kept_true fun ht => by rw [hb] at ht; cases ht
    | RAISED | ENABLE | RAISE | ACK => exact hx.congr rfl rfl rfl
    | SRC | DST | COUNT => exact ⟨hx.alone, hx.freed, hx.stale, hx.cmd, hx.acks, trivial⟩
  | wait =>
    obtain ⟨rfl, rfl⟩ := Prod.mk.inj hy
    split_ifs <;> exact hx
  | strcpy =>
    obtain ⟨rfl, rfl⟩ := Prod.mk.inj hy
    exact ⟨hx.alone, hx.freed, hx.stale, hx.cmd, hx.acks, trivial⟩
  | _ =>
    obtain ⟨rfl, rfl⟩ := Prod.mk.inj hy
    exact hx.congr rfl rfl rfl

theorem outlined_plain {p : List Probe} (hp : ∀ st ∈ p, plain bus st = true) :
    Outlined phys (Bound irq bus fun _ => True) (p.map .inl) (Bound irq bus fun _ => True) := by
  refine Outline.same (stable_bound kept_true) (fun _ _ => trivial) (fun st hst x _ => ?_)
    fun st hst => ?_
  · obtain ⟨st, -, rfl⟩ := List.mem_map.mp hst
    trivial
  · obtain ⟨st, hmem, rfl⟩ := List.mem_map.mp hst
    exact leads_plain (hp _ hmem)

theorem outlined_writel {C D : Engine → Prop} {irq' bus' : Bool} (hC : Kept C) (hD : Kept D)
    {w : Word} {r : Reg}
    (h : ∀ x, Bound irq bus C x → Bound irq' bus' D (x.writel (w.val ⟨NULL, NULL, phys⟩) r)) :
    Outlined phys (Bound irq bus C) [.inl (.writel w r)] (Bound irq' bus' D) :=
  .one (stable_bound hC) (stable_bound hD) (fun _ _ => trivial) (fun _ _ => trivial)
    (fun _ _ => trivial) (leads_writel h)

theorem outlined_command {C D : Engine → Prop} {bus : Bool} (hC : Kept C) (hD : Kept D)
    {c : BitVec 32} (h0 : c.getLsbD 0 = true) (hc : ToBus c)
    (hacks : irq = true → bus = true)
    (h : ∀ z : Engine, C z → D { z with cmd := c, sent := 0 }) :
    Outlined phys (Bound irq bus C) [.inl (.writel (.const c) .CMD)] (Bound irq true D) := by
  refine outlined_writel hC hD fun x hx => ?_
  show Bound irq true D { x with eng := x.eng.command c }
  rw [Engine.command, if_pos h0]
  refine ⟨hx.alone, hx.freed, hx.stale, fun _ => hc, fun _ d hd => ?_, h _ hx.eng⟩
  rcases hi : irq
  · rw [(hx.alone hi).2] at hd
    cases hd
  · exact hx.acks (hacks hi) d hd

/-- Statements that leave the page alone, after the third transfer has been started. -/
theorem outlined_after {p : List Stmt} (hC : Kept C) (hp : ∀ st ∈ p, unnoticed st = true) :
    Outlined phys (Bound true bus C) p (Bound true bus C) := by
  refine Outline.same (stable_bound hC) (fun _ _ => trivial) (fun st hst x _ => ?_)
    fun st hst x a y k hx hy => ?_
  · have hu := hp st hst
    rcases st with st | st
    · trivial
    · cases st with
      | dma_free_coherent => cases hu
      | _ => trivial
  · obtain ⟨rfl, rfl | rfl⟩ := exec_unnoticed (hp st hst) hy
    · exact hx
    · exact ⟨nofun, hx.freed, hx.stale, hx.cmd, hx.acks, hx.eng⟩

/-- **The outline of `my_probe` and `my_remove`**, whatever state the card was in. -/
theorem outlined : Outlined phys (Bound false false fun _ => True) program fun _ => True := by
  have h1 : Outlined phys (Bound false false fun _ => True)
      ([Probe.printk, .kmalloc_task, .pci_enable_device, .pci_set_dma_mask, .pci_set_master,
        .pci_request_region, .pci_ioremap_bar, .kmalloc_p, .dma_alloc_coherent, .strcpy,
        .writel (.phys 0) .SRC, .writel (.const 0x40000) .DST, .writel (.const 10) .COUNT,
        .writel (.const toCard) .CMD, .wait, .writel (.const 0x40000) .SRC,
        .writel (.phys 0xa) .DST, .writel (.const 10) .COUNT].map .inl)
      (Bound false false fun _ => True) := outlined_plain (by decide)
  have h2 : Outlined phys (Bound false false fun _ => True) [.inl (.writel (.const toPage) .CMD)]
      (Bound false true fun _ => True) :=
    outlined_command kept_true kept_true (by decide) ⟨by decide, by decide, by decide⟩ (by simp)
      fun _ _ => trivial
  have h3 : Outlined phys (Bound false true fun _ => True)
      ([Probe.wait, .show_page, .setup_timer, .set_virt, .set_dma_virt, .set_dma_phys,
        .pci_set_drvdata].map .inl) (Bound false true fun _ => True) := outlined_plain (by decide)
  have h4 : Outlined phys (Bound false true fun _ => True) [.inl .request_irq]
      (Bound true true fun _ => True) := by
    refine .one (stable_bound kept_true) (stable_bound kept_true) (fun _ _ => trivial)
      (fun _ _ => trivial) (fun _ _ => trivial) fun x a y k hx hy => ?_
    simp only [exec] at hy
    split_ifs at hy <;> obtain ⟨rfl, rfl⟩ := Prod.mk.inj (Option.some.inj hy)
    · trivial
    · exact ⟨by simp, hx.freed, hx.stale, hx.cmd, hx.acks, trivial⟩
  have h5 : Outlined phys (Bound true true fun _ => True)
      ([Probe.writel (.const 0x1000) .ENABLE, .writel (.const 0x100) .ENABLE,
        .writel (.const 0x40000) .SRC].map .inl) (Bound true true fun _ => True) :=
    outlined_plain (by decide)
  have h6 : Outlined phys (Bound true true fun _ => True) [.inl (.writel (.phys 0x14) .DST)]
      (Bound true true fun z => z.dst = behind phys 20) :=
    outlined_writel kept_true (kept_dst _) fun x hx =>
      ⟨hx.alone, hx.freed, hx.stale, hx.cmd, hx.acks, rfl⟩
  have h7 : Outlined phys (Bound true true fun z => z.dst = behind phys 20)
      [.inl (.writel (.const 10) .COUNT)]
      (Bound true true fun z => z.dst = behind phys 20 ∧ z.count = 10) :=
    outlined_writel (kept_dst _) (kept_count _ _) fun x hx =>
      ⟨hx.alone, hx.freed, hx.stale, hx.cmd, hx.acks, hx.eng, rfl⟩
  have h8 : Outlined phys (Bound true true fun z => z.dst = behind phys 20 ∧ z.count = 10)
      [.inl (.writel (.const toPageIntr) .CMD)] (Bound true true (Third phys)) :=
    outlined_command (kept_count _ _) kept_third (by decide) ⟨by decide, by decide, by decide⟩
      (fun _ => rfl) fun _ h => ⟨h.1, h.2, Nat.zero_le _⟩
  have h9 : Outlined phys (Bound true true (Third phys))
      [.inl .mod_timer, .inr .printk, .inr .if_task, .inr .tasklet_kill, .inr .kfree_task,
        .inr .clear_task, .inr .pci_get_drvdata, .inr .del_timer_sync]
      (Bound true true (Third phys)) := outlined_after kept_third (by decide)
  have h10 : Outlined phys (Bound true true (Third phys)) [.inr .free_irq]
      (Bound false true (Third phys)) := by
    refine .one (stable_bound kept_third) (stable_bound kept_third) (fun _ _ => trivial)
      (fun _ _ => trivial) (fun _ _ => trivial) fun x a y k hx hy => ?_
    simp only [exec] at hy
    split_ifs at hy with hnone
    obtain ⟨rfl, rfl⟩ := Prod.mk.inj (Option.some.inj hy)
    exact ⟨fun _ => ⟨rfl, hnone⟩, hx.freed, hx.stale, hx.cmd, hx.acks, hx.eng⟩
  have htrue : Stable (env phys) fun _ => True := fun _ _ _ _ _ => trivial
  have h11 : Outlined phys (Bound false true (Third phys)) [.inr .dma_free_coherent]
      fun _ => True := by
    refine .one (stable_bound kept_third) htrue (fun _ _ => trivial) (fun _ _ => trivial)
      (fun _ hx => hx) fun x a y k _ hy => ?_
    obtain ⟨rfl, rfl⟩ := Prod.mk.inj (Option.some.inj hy)
    trivial
  have h12 : Outlined phys (fun _ => True)
      [.inr .iounmap, .inr .pci_release_region, .inr .pci_disable_device, .inr .kfree_p]
      fun _ => True := by
    refine Outline.same htrue (fun _ _ => trivial) (fun st hst x _ => ?_)
      fun st _ x a y k _ _ => ?_
    · simp only [List.mem_cons, List.not_mem_nil, or_false] at hst
      rcases hst with rfl | rfl | rfl | rfl <;> trivial
    · cases k <;> trivial
  exact h1.append (h2.append (h3.append (h4.append (h5.append (h6.append (h7.append (h8.append
    (h9.append (h10.append (h11.append h12))))))))))

end Program

/-! ### The page after `dma_free_coherent` -/

/-- No handler is left, and the card has stored all that it was told to. -/
structure Stored (x : World) : Prop where
  alone : x.irq = false ∧ x.invs = []
  all : x.eng.busy = false ∨ (x.eng.sent = 10 ∧ x.eng.count = 10)
  stale : x.eng.stale = false

theorem Stored.env (h : Stored x) {e : Beside} (he : Transfer.env phys x e = some y) : Stored y := by
  cases e with
  | byte =>
    simp only [Transfer.env] at he
    split_ifs at he with hgo
    rcases h.all with hidle | ⟨hsent, hcount⟩
    · rw [hgo.1] at hidle
      cases hidle
    · have hlt := hgo.2
      rw [hsent, hcount] at hlt
      exact absurd hlt (by decide)
  | complete =>
    simp only [Transfer.env] at he
    split_ifs at he <;> obtain rfl := Option.some.inj he <;>
      exact ⟨h.alone, .inl (idle_after _), h.stale⟩
  | tick =>
    obtain rfl := Option.some.inj he
    exact ⟨h.alone, h.all, h.stale⟩
  | irq =>
    simp only [Transfer.env] at he
    rw [if_neg (by rw [h.alone.1]; decide)] at he
    cases he
  | handler i =>
    simp only [Transfer.env, h.alone.2, List.getElem?_nil] at he
    cases he
  | tasklet =>
    simp only [Transfer.env] at he
    split_ifs at he <;> obtain rfl := Option.some.inj he <;> exact ⟨h.alone, h.all, h.stale⟩

/-- The rest of `my_remove`, with what goes on beside it. -/
theorem Stored.step {s t : List Stmt × World} (hp : ∀ st ∈ s.1, unnoticed st = true)
    (h : Stored s.2) {e : ℤ ⊕ Beside}
    (he : outlineStep (exec phys) (Transfer.env phys) s e = some t) :
    (∀ st ∈ t.1, unnoticed st = true) ∧ Stored t.2 := by
  obtain ⟨p, x⟩ := s
  rcases e with a | e
  · rcases p with _ | ⟨st, rest⟩
    · cases he
    · obtain ⟨⟨y, k⟩, hy, rfl⟩ := Option.map_eq_some_iff.mp he
      obtain ⟨rfl, hx⟩ := exec_unnoticed (hp st List.mem_cons_self) hy
      refine ⟨fun u hu => hp u (List.mem_cons_of_mem _ hu), ?_⟩
      rcases hx with rfl | rfl
      · exact h
      · exact ⟨⟨rfl, h.alone.2⟩, h.all, h.stale⟩
  · rw [outlineStep_env] at he
    obtain ⟨y, hy, rfl⟩ := Option.map_eq_some_iff.mp he
    exact ⟨hp, h.env hy⟩

/-- A byte that goes to the bus, on a page that has been freed. -/
theorem byte_freed {z : Engine} (hc : ToBus z.cmd) (hf : z.freed = true)
    (hpage : (behind z.dst z.sent - phys).toNat < 4096) : (z.byte phys).stale = true := by
  unfold Engine.byte Engine.store
  rw [hc.code, if_pos rfl]
  show (z.stale || (z.freed && decide _)) = true
  rw [hf, decide_eq_true hpage, Bool.and_self, Bool.or_true]

/-- The bytes of the third transfer are stored on the page. -/
theorem Third.page {z : Engine} (h : Third phys z) : (behind z.dst z.sent - phys).toNat < 4096 := by
  have hsent := h.sent
  have hcancel : phys + BitVec.ofNat 32 (20 + z.sent) - phys = BitVec.ofNat 32 (20 + z.sent) := by
    rw [BitVec.add_comm, BitVec.add_sub_cancel]
  rw [h.dst, behind_behind, hcancel, BitVec.toNat_ofNat, Nat.mod_eq_of_lt (by omega)]
  omega

/-- **The freed page.** `my_remove` does not wait for the third transfer: whatever
comes after it has freed the page, the card stores nothing there if and only if the
transfer is over or has stored all its bytes by then. -/
theorem freed_page_iff (phys : BitVec 32) (eng : Engine) (raised : BitVec 32) (queued : ℕ)
    {es : List (ℤ ⊕ Beside)} {rest : List Stmt} (a : ℤ)
    (h : Machine.run (outlineStep (exec phys) (env phys)) (program, rebound eng raised queued) es =
      some (.inr .dma_free_coherent :: rest, x)) :
    (∀ fs p y, Machine.run (outlineStep (exec phys) (env phys))
        (.inr .dma_free_coherent :: rest, x) (.inl a :: fs) = some (p, y) → y.eng.stale = false) ↔
      x.eng.busy = false ∨ x.eng.sent = 10 := by
  have hstart : Bound false false (fun _ => True) (rebound eng raised queued) :=
    ⟨fun _ => ⟨rfl, rfl⟩, rfl, rfl, nofun, nofun, trivial⟩
  obtain ⟨-, hbef, -⟩ := (@outlined phys).sound (fun _ _ _ _ _ => trivial) (fun _ _ => trivial)
    hstart h
  have hx : Bound false true (Third phys) x := hbef _ _ rfl
  constructor
  · -- one more byte would be stored on the freed page
    intro hall
    by_contra hno
    rw [not_or] at hno
    have hgo : x.eng.busy = true ∧ x.eng.sent < x.eng.count.toNat := by
      rw [hx.eng.count]
      exact ⟨by simpa using hno.1, lt_of_le_of_ne hx.eng.sent hno.2⟩
    have henv : env phys x.free .byte = some { x.free with eng := x.free.eng.byte phys } :=
      if_pos hgo
    have hrun : Machine.run (outlineStep (exec phys) (env phys))
        (.inr .dma_free_coherent :: rest, x) [.inl a, .inr .byte] =
        some (rest, { x.free with eng := x.free.eng.byte phys }) := by
      rw [Machine.run_cons]
      show Machine.run _ (rest, x.free) _ = _
      rw [Machine.run_cons, outlineStep_env, henv]
      rfl
    have hstored : (x.free.eng.byte phys).stale = true :=
      byte_freed (hx.cmd rfl) rfl hx.eng.page
    rw [hall _ _ _ hrun] at hstored
    cases hstored
  · intro hall fs p y hrun
    have hsuf := outline_suffix h
    have htails : ∀ q ∈ program.tails, q.head? = some (.inr .dma_free_coherent) →
        ∀ st ∈ q.tail, unnoticed st = true := by decide
    have hrest : ∀ st ∈ rest, unnoticed st = true :=
      htails _ ((List.mem_tails _ _).mpr hsuf) rfl
    have hfree : Stored x.free :=
      ⟨hx.alone rfl, hall.imp_right fun hs => ⟨hs, hx.eng.count⟩, hx.stale⟩
    rw [Machine.run_cons] at hrun
    exact (Machine.run_inv _
      (fun s : List Stmt × World => (∀ st ∈ s.1, unnoticed st = true) ∧ Stored s.2)
      ⟨hrest, hfree⟩ (fun s e t hi he => Stored.step hi.1 hi.2 he) hrun).2.stale

/-- The device is bound and removed at once. -/
def unbound : List (ℤ ⊕ Beside) :=
  List.flatten
    [List.replicate 14 (.inl 0), List.replicate 10 (.inr .byte), [.inr .complete],
      List.replicate 5 (.inl 0), List.replicate 10 (.inr .byte), [.inr .complete],
      List.replicate 23 (.inl 0)]

/-- The third transfer of an earlier driver, of which one byte is stored. -/
def left : Engine := ⟨0x40000, 0x2014, 10, toPageIntr, 1, fun _ => 0, fun _ => 0, true, true⟩

set_option maxRecDepth 8000 in
/-- The card has not begun to store when the page is freed, so it may store there. -/
theorem freed_page_unbound : ∃ rest x,
    Machine.run (outlineStep (exec 0x1000) (env 0x1000)) (program, rebound left 0x100 0) unbound =
      some (.inr .dma_free_coherent :: rest, x) ∧
    ¬ ∀ fs p y, Machine.run (outlineStep (exec 0x1000) (env 0x1000))
      (.inr .dma_free_coherent :: rest, x) (.inl 0 :: fs) = some (p, y) → y.eng.stale = false := by
  obtain ⟨rest, x, hrun, hbusy, hsent⟩ : ∃ rest x,
      Machine.run (outlineStep (exec 0x1000) (env 0x1000)) (program, rebound left 0x100 0) unbound =
        some (.inr .dma_free_coherent :: rest, x) ∧ x.eng.busy = true ∧ x.eng.sent = 0 :=
    ⟨_, _, rfl, rfl, rfl⟩
  refine ⟨rest, x, hrun, fun hall => ?_⟩
  rcases (freed_page_iff 0x1000 left 0x100 0 0 hrun).mp hall with h | h
  · rw [hbusy] at h
    cases h
  · rw [hsent] at h
    cases h

end FreedPage
end Pb173
