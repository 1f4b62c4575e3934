/-
# The interface of the network driver and its timer (12)

`my_init` and `my_exit`, statement by statement, with the interface brought up
and down beside them and `timer_fn` running, re-arming itself each time.
`my_ndev_open` and `my_ndev_stop` are called under the RTNL lock, which
`register_netdev` and `unregister_netdev` take too; `unregister_netdev` stops an
interface that is up. `del_timer_sync` waits for `timer_fn` and comes back with
the timer not set; `mod_timer` sets it. The timer lies in the memory of `ndev`.

The timer is set, or `timer_fn` on its way to set it, exactly while the interface
is up, so nothing touches `ndev` or the timer that is not there
(`timer_while_up`). What the timer does to the packets is `Packets.step`: every
run is one of that machine, seen from here (`run_packets`).
-/
import Pb173.NetLoad
import Pb173.Outline
import Pb173.Packets

namespace Pb173
namespace Interface

open SkBuff (Tick)
open NetLoad (Init Exit my_init my_exit)

/-- Where `ndev` is. -/
inductive Dev
  | absent | allocated | registered | unregistered | freed
deriving DecidableEq

/-- There is memory behind `ndev` and `my_timer`. -/
def Dev.alive : Dev → Bool
  | .allocated | .registered | .unregistered => true
  | .absent | .freed => false

/-- Who holds the RTNL lock. -/
inductive Rtnl
  | free | opening | stopping | unregistering
deriving DecidableEq

/-- The packets with the timer; whether `my_device` is registered; the device and
its flag `IFF_UP`. `bad` is an access to a device or a timer that is not there. -/
structure World where
  pk : Packets.State
  misc : Bool
  dev : Dev
  up : Bool
  rtnl : Rtnl
  bad : Bool

namespace World

variable (x : World)

/-- An access to `ndev` or `my_timer`. -/
def touch : World := { x with bad := x.bad || !x.dev.alive }

/-- `mod_timer(my_timer, ...)` in `my_ndev_open`. -/
def opened : World :=
  { x.touch with
    pk := { x.pk with net := { x.pk.net with armed := true } }, up := true, rtnl := .free }

/-- `del_timer_sync(my_timer)` in `my_ndev_stop`, when `timer_fn` does not run. -/
def stopped (r : Rtnl) : World :=
  { x.touch with
    pk := { x.pk with net := { x.pk.net with armed := false } }, up := false, rtnl := r }

end World

/-- The statements of `timer_fn` that use `ndev` or `my_timer`. -/
def touches : Tick → Bool
  | .netdev_alloc_skb | .eth_type_trans | .mod_timer => true
  | _ => false

/-- The next statement of `timer_fn` uses one of them. -/
def touchesNext (p : Packets.State) : Bool :=
  match p.timer with
  | some (_, st :: _) => touches st
  | _ => false

/-- What goes on beside the module's statements: the interface is brought up or
down, the timer expires, `timer_fn` goes on, and packets are written and
delivered. -/
inductive Beside
  | up
  | opened
  | down
  | stopped
  | expire
  | timer (room : Option SkBuff.Room)
  | write (room : Option SkBuff.Room) (buf : List UInt8) (count : ℕ)
  | deliver

/-- A step beside the module. That `my_write` finds its device is the subject of
`NetLoad`. -/
def env (x : World) : Beside → Option World
  | .up =>
    if x.dev = .registered ∧ x.rtnl = .free ∧ x.up = false then some { x with rtnl := .opening }
    else none
  | .opened => if x.rtnl = .opening then some x.opened else none
  | .down =>
    if x.dev = .registered ∧ x.rtnl = .free ∧ x.up = true then some { x with rtnl := .stopping }
    else none
  | .stopped =>
    if x.rtnl = .stopping ∧ x.pk.timer = none then some (x.stopped .free) else none
  | .expire => (Packets.step x.pk .expire).map fun p => { x.touch with pk := p }
  | .timer room => (Packets.step x.pk (.timer room)).map fun p =>
      { if touchesNext x.pk then x.touch else x with pk := p }
  | .write room buf count =>
    if x.misc then (Packets.step x.pk (.write room buf count)).map fun p => { x with pk := p }
    else none
  | .deliver => (Packets.step x.pk .deliver).map fun p => { x with pk := p }

/-- The statements of the module: `my_init` and, if it succeeds, `my_exit`. -/
abbrev Stmt := Init ⊕ Exit

def program : List Stmt := my_init.map .inl ++ my_exit.map .inr

/-- A statement of `my_init`; `err` is what the kernel answers. -/
def init (err : ℤ) (x : World) : Init → World × Then
  | .misc_register => (if err = 0 then { x with misc := true } else x, .next)
  | .alloc_etherdev => if err ≠ 0 then (x, .stop) else ({ x with dev := .allocated }, .next)
  | .register_netdev =>
    if err ≠ 0 then (x.touch, .stop) else ({ x.touch with dev := .registered }, .next)
  | .set_name | .set_netdev_ops | .random_ether_addr | .netdev_priv | .setup_timer =>
    (x.touch, .next)
  | .init_kfifo => (x, .next)

/-- `unregister_netdev` takes the RTNL lock, stops the interface if it is up, and
takes the device from the network core. -/
def unregister (x : World) : Option (World × Then) :=
  match x.rtnl with
  | .free => some ({ x with rtnl := .unregistering }, .again)
  | .unregistering =>
    if x.up then if x.pk.timer = none then some (x.stopped .unregistering, .again) else none
    else some ({ x.touch with dev := .unregistered, rtnl := .free }, .next)
  | .opening | .stopping => none

def exec : Stmt → ℤ → World → Option (World × Then)
  | .inl st, err, x => some (init err x st)
  | .inr .misc_deregister, _, x => some ({ x with misc := false }, .next)
  | .inr .unregister_netdev, _, x => unregister x
  | .inr .free_netdev, _, x => some ({ x.touch with dev := .freed }, .next)

def start (junk : ℕ → ℕ → UInt8) : World := ⟨Packets.start junk, false, .absent, false, .free, false⟩

/-! ### What is kept -/

/-- The timer is set, or `timer_fn` has still to set it. -/
def Pending (p : Packets.State) : Prop :=
  p.net.armed = true ∨ ∃ pack rest, p.timer = some (pack, rest) ∧ .mod_timer ∈ rest

/-- The timer is not set, and `timer_fn` does not run. -/
structure Off (p : Packets.State) : Prop where
  armed : p.net.armed = false
  timer : p.timer = none

/-- The timer is on while the interface is up, and off otherwise. -/
structure Matched (x : World) : Prop where
  up : x.up = true → Pending x.pk
  down : x.up = false → Off x.pk
  bad : x.bad = false

variable {x y : World}

/-- A statement of `timer_fn` sets the timer, or leaves it as it is. -/
theorem exec_armed {room : Option SkBuff.Room} {pack pack' : Option SkBuff.sk_buff}
    {n n' : SkBuff.Net} {st : Tick} (h : st.exec room pack n = some (pack', n')) :
    n'.armed = if st = .mod_timer then true else n.armed := by
  cases st with
  | netdev_alloc_skb | increment | mod_timer =>
    obtain ⟨-, rfl⟩ := Prod.mk.inj (Option.some.inj h)
    rfl
  | set_data | set_len | eth_type_trans | netif_rx =>
    obtain ⟨skb, -, hr⟩ := Option.map_eq_some_iff.mp h
    obtain ⟨-, rfl⟩ := Prod.mk.inj hr
    rfl

theorem my_write_armed {room : Option SkBuff.Room} {buf : List UInt8} {count : ℕ}
    {n n' : SkBuff.Net} {r : ℤ} (h : SkBuff.my_write room buf count n = some (r, n')) :
    n'.armed = n.armed := by
  rcases room with _ | room
  · cases h
  · simp only [SkBuff.my_write, SkBuff.netdev_alloc_skb] at h
    split_ifs at h <;> obtain ⟨-, rfl⟩ := Prod.mk.inj (Option.some.inj h) <;> rfl

/-- While the timer is on, only `my_ndev_stop` puts it off. -/
theorem Pending.step {p q : Packets.State} {e : Packets.Ev} (h : Pending p)
    (he : Packets.step p e = some q) (hs : e ≠ .ndo_stop) : Pending q := by
  cases Packets.Moves.of_step he with
  | ndo_open => exact .inl rfl
  | ndo_stop _ => exact absurd rfl hs
  | expire _ => exact .inr ⟨none, SkBuff.timer_fn, rfl, by decide⟩
  | timer ht =>
    unfold Packets.timerStep at ht
    split at ht
    · cases ht
    · rename_i pack htm
      obtain rfl := Option.some.inj ht
      rcases h with ha | ⟨pack', rest, hr, hm⟩
      · exact .inl ha
      · rw [htm] at hr
        obtain ⟨-, rfl⟩ := Prod.mk.inj (Option.some.inj hr)
        cases hm
    · rename_i pack st rest htm
      obtain ⟨⟨pack', n⟩, hx, rfl⟩ := Option.map_eq_some_iff.mp ht
      have harm := exec_armed hx
      by_cases hst : st = .mod_timer
      · rw [if_pos hst] at harm
        exact .inl harm
      · rw [if_neg hst] at harm
        rcases h with ha | ⟨pack'', rest', hr, hm⟩
        · exact .inl (harm.trans ha)
        · rw [htm] at hr
          obtain ⟨-, rfl⟩ := Prod.mk.inj (Option.some.inj hr)
          refine .inr ⟨pack', rest, rfl, ?_⟩
          rcases List.mem_cons.mp hm with hm | hm
          · exact absurd hm.symm hst
          · exact hm
  | write hw => exact h.imp_left fun ha => (my_write_armed hw).trans ha
  | deliver hb => exact h

/-- While the timer is off, only `my_ndev_open` puts it on. -/
theorem Off.step {p q : Packets.State} {e : Packets.Ev} (h : Off p)
    (he : Packets.step p e = some q) (hs : e ≠ .ndo_open) :
    Off q ∧ e ≠ .expire ∧ ∀ room, e ≠ .timer room := by
  cases e with
  | ndo_open => exact absurd rfl hs
  | ndo_stop =>
    simp only [Packets.step, h.timer] at he
    obtain rfl := Option.some.inj he
    exact ⟨⟨rfl, rfl⟩, by simp⟩
  | expire => simp [Packets.step, h.timer, h.armed] at he
  | timer room => simp [Packets.step, Packets.timerStep, h.timer] at he
  | write room buf count =>
    obtain ⟨⟨r, n⟩, hw, rfl⟩ := Option.map_eq_some_iff.mp he
    exact ⟨⟨(my_write_armed hw).trans h.armed, h.timer⟩, by simp⟩
  | deliver =>
    cases Packets.Moves.of_step he with
    | deliver hb => exact ⟨⟨h.armed, h.timer⟩, by simp⟩

theorem touch_alive (hd : x.dev.alive = true) : x.touch = x := by
  unfold World.touch
  rw [hd, Bool.not_true, Bool.or_false]

/-- The device is at `d`, and the interface is down. -/
structure Down (d : Dev) (x : World) : Prop where
  dev : x.dev = d
  up : x.up = false
  rtnl : x.rtnl = .free
  matched : Matched x

/-- The device is registered; a call that is in progress has its reason. -/
structure Live (x : World) : Prop where
  dev : x.dev = .registered
  opening : x.rtnl = .opening → x.up = false
  stopping : x.rtnl = .stopping → x.up = true
  matched : Matched x

theorem stable_down {d : Dev} (hd : d ≠ .registered) : Stable env (Down d) := by
  intro x e y h he
  have hoff := h.matched.down h.up
  have hnr : x.dev ≠ .registered := fun hr => hd (h.dev ▸ hr)
  have hpk : ∀ (pe : Packets.Ev) (q : Packets.State), Packets.step x.pk pe = some q →
      pe ≠ .ndo_open → pe ≠ .expire ∧ (∀ room, pe ≠ .timer room) ∧
        Down d { x with pk := q } := by
    intro pe q hq hne
    obtain ⟨ho, h1, h2⟩ := hoff.step hq hne
    exact ⟨h1, h2, h.dev, h.up, h.rtnl, fun hup => absurd (h.up ▸ hup) nofun, fun _ => ho,
      h.matched.bad⟩
  cases e with
  | up | down =>
    simp only [env] at he
    rw [if_neg fun hc => hnr hc.1] at he
    cases he
  | opened =>
    simp only [env, h.rtnl] at he
    cases he
  | stopped =>
    simp only [env, h.rtnl] at he
    rw [if_neg fun hc => nomatch hc.1] at he
    cases he
  | expire =>
    obtain ⟨q, hq, rfl⟩ := Option.map_eq_some_iff.mp he
    exact absurd rfl (hpk .expire q hq nofun).1
  | timer room =>
    obtain ⟨q, hq, rfl⟩ := Option.map_eq_some_iff.mp he
    exact absurd rfl ((hpk (.timer room) q hq nofun).2.1 room)
  | write room buf count =>
    simp only [env] at he
    split_ifs at he
    obtain ⟨q, hq, rfl⟩ := Option.map_eq_some_iff.mp he
    exact (hpk _ q hq nofun).2.2
  | deliver =>
    obtain ⟨q, hq, rfl⟩ := Option.map_eq_some_iff.mp he
    exact (hpk _ q hq nofun).2.2

theorem stable_live : Stable env Live := by
  intro x e y h he
  have halive : x.dev.alive = true := by rw [h.dev]; rfl
  have htouch := touch_alive halive
  have hpk : ∀ (pe : Packets.Ev) (q : Packets.State), Packets.step x.pk pe = some q →
      pe ≠ .ndo_open → pe ≠ .ndo_stop → Live { x with pk := q } := by
    intro pe q hq hne hne'
    exact ⟨h.dev, h.opening, h.stopping, fun hup => (h.matched.up hup).step hq hne',
      fun hdn => ((h.matched.down hdn).step hq hne).1, h.matched.bad⟩
  cases e with
  | up =>
    simp only [env] at he
    split_ifs at he with hc
    obtain rfl := Option.some.inj he
    exact ⟨h.dev, fun _ => hc.2.2, nofun, h.matched.up, h.matched.down, h.matched.bad⟩
  | down =>
    simp only [env] at he
    split_ifs at he with hc
    obtain rfl := Option.some.inj he
    exact ⟨h.dev, nofun, fun _ => hc.2.2, h.matched.up, h.matched.down, h.matched.bad⟩
  | opened =>
    simp only [env] at he
    split_ifs at he with hc
    obtain rfl := Option.some.inj he
    unfold World.opened
    rw [htouch]
    exact ⟨h.dev, nofun, nofun, fun _ => .inl rfl, nofun, h.matched.bad⟩
  | stopped =>
    simp only [env] at he
    split_ifs at he with hc
    obtain rfl := Option.some.inj he
    unfold World.stopped
    rw [htouch]
    exact ⟨h.dev, nofun, nofun, nofun, fun _ => ⟨rfl, hc.2⟩, h.matched.bad⟩
  | expire =>
    obtain ⟨q, hq, rfl⟩ := Option.map_eq_some_iff.mp he
    rw [htouch]
    exact hpk _ q hq nofun nofun
  | timer room =>
    obtain ⟨q, hq, rfl⟩ := Option.map_eq_some_iff.mp he
    rw [htouch, ite_self]
    exact hpk _ q hq nofun nofun
  | write room buf count =>
    simp only [env] at he
    split_ifs at he
    obtain ⟨q, hq, rfl⟩ := Option.map_eq_some_iff.mp he
    exact hpk _ q hq nofun nofun
  | deliver =>
    obtain ⟨q, hq, rfl⟩ := Option.map_eq_some_iff.mp he
    exact hpk _ q hq nofun nofun

/-! ### The outline of the module -/

/-- What holds all along. -/
structure Throughout (x : World) : Prop where
  matched : Matched x
  registered : x.up = true → x.dev = .registered

theorem Down.throughout {d : Dev} (h : Down d x) : Throughout x :=
  ⟨h.matched, fun hu => absurd (h.up.symm.trans hu) nofun⟩

theorem Live.throughout (h : Live x) : Throughout x := ⟨h.matched, fun _ => h.dev⟩

/-- `my_init` has failed. -/
def Failed (x : World) : Prop := Down .absent x ∨ Down .allocated x

theorem stable_failed : Stable env Failed := by
  rintro x e y (h | h) he
  · exact .inl (stable_down (by decide) x e y h he)
  · exact .inr (stable_down (by decide) x e y h he)

abbrev Outlined : (World → Prop) → List Stmt → (World → Prop) → Prop :=
  Outline exec env Throughout (fun _ _ => True) Failed

theorem outlined_down {d : Dev} (hd : d ≠ .registered) {p : List Init}
    (hp : ∀ st ∈ p, ∀ err x, Down d x →
      (init err x st).2 = .next ∧ Down d (init err x st).1) :
    Outlined (Down d) (p.map .inl) (Down d) := by
  refine Outline.same (stable_down hd) (fun x hx => hx.throughout) (fun _ _ _ _ => trivial)
    fun st hst x a y k hx hy => ?_
  obtain ⟨st, hmem, rfl⟩ := List.mem_map.mp hst
  obtain ⟨hk, hdn⟩ := hp st hmem a x hx
  have hinit : init a x st = (y, k) := Option.some.inj hy
  rw [hinit] at hk hdn
  obtain rfl : k = .next := hk
  exact hdn

theorem outlined_unregister : Outlined Live [.inr .unregister_netdev] (Down .unregistered) := by
  refine .one stable_live (stable_down (by decide)) (fun x hx => hx.throughout)
    (fun x hx => hx.throughout) (fun _ _ => trivial) fun x a y k hx hy => ?_
  have htouch : x.touch = x := touch_alive (by rw [hx.dev]; rfl)
  change unregister x = some (y, k) at hy
  unfold unregister at hy
  split at hy
  · obtain ⟨rfl, rfl⟩ := Prod.mk.inj (Option.some.inj hy)
    exact ⟨hx.dev, nofun, nofun, hx.matched.up, hx.matched.down, hx.matched.bad⟩
  · split_ifs at hy with hup ht
    · -- the interface was up
      obtain ⟨rfl, rfl⟩ := Prod.mk.inj (Option.some.inj hy)
      unfold World.stopped
      rw [htouch]
      exact ⟨hx.dev, nofun, nofun, nofun, fun _ => ⟨rfl, ht⟩, hx.matched.bad⟩
    · obtain ⟨rfl, rfl⟩ := Prod.mk.inj (Option.some.inj hy)
      rw [htouch]
      have hdn : x.up = false := by simpa using hup
      exact ⟨rfl, hdn, rfl, hx.matched.up, hx.matched.down, hx.matched.bad⟩
  · cases hy
  · cases hy

/-- **The outline of `my_init` and `my_exit`.** -/
theorem outlined : Outlined (Down .absent) program (Down .freed) := by
  have h1 : Outlined (Down .absent) ([Init.init_kfifo, .misc_register].map .inl) (Down .absent) := by
    refine outlined_down (by decide) fun st hst err x hx => ?_
    simp only [List.mem_cons, List.not_mem_nil, or_false] at hst
    rcases hst with rfl | rfl
    · exact ⟨rfl, hx⟩
    · refine ⟨rfl, ?_⟩
      change Down .absent (if err = 0 then { x with misc := true } else x)
      split_ifs
      · exact ⟨hx.dev, hx.up, hx.rtnl, hx.matched.up, hx.matched.down, hx.matched.bad⟩
      · exact hx
  have h2 : Outlined (Down .absent) [.inl .alloc_etherdev] (Down .allocated) := by
    refine .one (stable_down (by decide)) (stable_down (by decide)) (fun x hx => hx.throughout)
      (fun x hx => hx.throughout) (fun _ _ => trivial) fun x a y k hx hy => ?_
    simp only [exec, init] at hy
    split_ifs at hy
    · obtain ⟨rfl, rfl⟩ := Prod.mk.inj (Option.some.inj hy)
      exact .inl hx
    · obtain ⟨rfl, rfl⟩ := Prod.mk.inj (Option.some.inj hy)
      exact ⟨rfl, hx.up, hx.rtnl, hx.matched.up, hx.matched.down, hx.matched.bad⟩
  have h3 : Outlined (Down .allocated)
      ([Init.set_name, .set_netdev_ops, .random_ether_addr, .netdev_priv, .setup_timer].map .inl)
      (Down .allocated) := by
    refine outlined_down (by decide) fun st hst err x hx => ?_
    have htouch : x.touch = x := touch_alive (by rw [hx.dev]; rfl)
    simp only [List.mem_cons, List.not_mem_nil, or_false] at hst
    have hdn : Down .allocated x.touch := by rw [htouch]; exact hx
    rcases hst with rfl | rfl | rfl | rfl | rfl <;> exact ⟨rfl, hdn⟩
  have h4 : Outlined (Down .allocated) [.inl .register_netdev] Live := by
    refine .one (stable_down (by decide)) stable_live (fun x hx => hx.throughout)
      (fun x hx => hx.throughout) (fun _ _ => trivial) fun x a y k hx hy => ?_
    have htouch : x.touch = x := touch_alive (by rw [hx.dev]; rfl)
    simp only [exec, init, htouch] at hy
    split_ifs at hy
    · obtain ⟨rfl, rfl⟩ := Prod.mk.inj (Option.some.inj hy)
      exact .inr hx
    · obtain ⟨rfl, rfl⟩ := Prod.mk.inj (Option.some.inj hy)
      exact ⟨rfl, fun _ => hx.up, fun hr => absurd (hx.rtnl.symm.trans hr) nofun, hx.matched.up,
        hx.matched.down, hx.matched.bad⟩
  have h5 : Outlined Live [.inr .misc_deregister] Live := by
    refine .one stable_live stable_live (fun x hx => hx.throughout) (fun x hx => hx.throughout)
      (fun _ _ => trivial) fun x a y k hx hy => ?_
    obtain ⟨rfl, rfl⟩ := Prod.mk.inj (Option.some.inj hy)
    exact ⟨hx.dev, hx.opening, hx.stopping, hx.matched.up, hx.matched.down, hx.matched.bad⟩
  have h6 : Outlined (Down .unregistered) [.inr .free_netdev] (Down .freed) := by
    refine .one (stable_down (by decide)) (stable_down (by decide)) (fun x hx => hx.throughout)
      (fun x hx => hx.throughout) (fun _ _ => trivial) fun x a y k hx hy => ?_
    have htouch : x.touch = x := touch_alive (by rw [hx.dev]; rfl)
    obtain ⟨rfl, rfl⟩ := Prod.mk.inj (Option.some.inj hy)
    rw [htouch]
    exact ⟨rfl, hx.up, hx.rtnl, hx.matched.up, hx.matched.down, hx.matched.bad⟩
  exact h1.append (h2.append (h3.append (h4.append (h5.append (outlined_unregister.append h6)))))

/-! ### The packets, seen from here -/

theorem init_packets (err : ℤ) (x : World) (st : Init) : (init err x st).1.pk = x.pk := by
  cases st with
  | misc_register | alloc_etherdev | register_netdev =>
    unfold init
    dsimp only
    split_ifs <;> rfl
  | _ => rfl

theorem step_packets {s t : List Stmt × World} {e : ℤ ⊕ Beside}
    (he : outlineStep exec env s e = some t) :
    t.2.pk = s.2.pk ∨ ∃ pe, Packets.step s.2.pk pe = some t.2.pk := by
  obtain ⟨p, x⟩ := s
  have hstopped : ∀ r, x.pk.timer = none → Packets.step x.pk .ndo_stop = some (x.stopped r).pk := by
    intro r ht
    simp only [Packets.step, World.stopped, ht]
  rcases e with a | e
  · rcases p with _ | ⟨st, rest⟩
    · cases he
    · obtain ⟨⟨y, k⟩, hy, rfl⟩ := Option.map_eq_some_iff.mp he
      rcases st with st | st
      · obtain ⟨rfl, rfl⟩ := Prod.mk.inj (Option.some.inj hy)
        exact .inl (init_packets a x st)
      · cases st with
        | unregister_netdev =>
          change unregister x = some (y, k) at hy
          unfold unregister at hy
          split at hy
          · obtain ⟨rfl, rfl⟩ := Prod.mk.inj (Option.some.inj hy)
            exact .inl rfl
          · split_ifs at hy with hup ht
            · obtain ⟨rfl, rfl⟩ := Prod.mk.inj (Option.some.inj hy)
              exact .inr ⟨.ndo_stop, hstopped _ ht⟩
            · obtain ⟨rfl, rfl⟩ := Prod.mk.inj (Option.some.inj hy)
              exact .inl rfl
          · cases hy
          · cases hy
        | misc_deregister | free_netdev =>
          obtain ⟨rfl, rfl⟩ := Prod.mk.inj (Option.some.inj hy)
          exact .inl rfl
  · rw [outlineStep_env] at he
    obtain ⟨y, hy, rfl⟩ := Option.map_eq_some_iff.mp he
    cases e with
    | up | down =>
      simp only [env] at hy
      split_ifs at hy
      obtain rfl := Option.some.inj hy
      exact .inl rfl
    | opened =>
      simp only [env] at hy
      split_ifs at hy
      obtain rfl := Option.some.inj hy
      exact .inr ⟨.ndo_open, rfl⟩
    | stopped =>
      simp only [env] at hy
      split_ifs at hy with hc
      obtain rfl := Option.some.inj hy
      exact .inr ⟨.ndo_stop, hstopped _ hc.2⟩
    | expire | timer _ | deliver =>
      obtain ⟨q, hq, rfl⟩ := Option.map_eq_some_iff.mp hy
      exact .inr ⟨_, hq⟩
    | write _ _ _ =>
      simp only [env] at hy
      split_ifs at hy
      obtain ⟨q, hq, rfl⟩ := Option.map_eq_some_iff.mp hy
      exact .inr ⟨_, hq⟩

/-- The packets of a run are those of a run of `Packets`. -/
theorem run_packets {junk : ℕ → ℕ → UInt8} {es : List (ℤ ⊕ Beside)} {p : List Stmt}
    (h : Machine.run (outlineStep exec env) (program, start junk) es = some (p, x)) :
    ∃ fs, Machine.run Packets.step (Packets.start junk) fs = some x.pk := by
  refine Machine.run_inv _ (fun s : List Stmt × World =>
    ∃ fs, Machine.run Packets.step (Packets.start junk) fs = some s.2.pk) ⟨[], rfl⟩
    (fun s e t hi he => ?_) h
  obtain ⟨fs, hfs⟩ := hi
  rcases step_packets he with heq | ⟨pe, hpe⟩
  · exact ⟨fs, hfs.trans (congrArg some heq.symm)⟩
  · exact ⟨fs ++ [pe], (Machine.run_concat_eq_some _).mpr ⟨_, hfs, hpe⟩⟩

/-- **The timer runs while the interface is up.** In every run of the module, with
the interface going up and down in any way: the timer is set, or `timer_fn` has
still to set it, while the interface is up, which is then registered; otherwise
it is not set and `timer_fn` does not run; no access to the device or the timer
misses; and the packets are those of a run of `Packets`. -/
theorem timer_while_up (junk : ℕ → ℕ → UInt8) {es : List (ℤ ⊕ Beside)} {p : List Stmt}
    (h : Machine.run (outlineStep exec env) (program, start junk) es = some (p, x)) :
    (x.up = true → Pending x.pk ∧ x.dev = .registered) ∧ (x.up = false → Off x.pk) ∧
      x.bad = false ∧ ∃ fs, Machine.run Packets.step (Packets.start junk) fs = some x.pk := by
  have hstart : Down .absent (start junk) := ⟨rfl, rfl, rfl, nofun, fun _ => ⟨rfl, rfl⟩, rfl⟩
  obtain ⟨hthr, -, -⟩ := outlined.sound stable_failed
    (fun x hx => hx.elim Down.throughout Down.throughout) hstart h
  exact ⟨fun hu => ⟨hthr.matched.up hu, hthr.registered hu⟩, hthr.matched.down, hthr.matched.bad,
    run_packets h⟩

/-- The module is loaded and unloaded with the interface up, while `timer_fn` runs. -/
def downAtExit : List (ℤ ⊕ Beside) :=
  List.replicate 9 (.inl 0) ++ [.inr .up, .inr .opened, .inr .expire] ++
    List.replicate 2 (.inl 0) ++ List.replicate 8 (.inr (.timer (some ⟨0, 1000⟩))) ++
    List.replicate 3 (.inl 0)

/-- `unregister_netdev` waits for it, and stops the timer that it has set. -/
theorem timer_down_at_exit : ∃ x,
    Machine.run (outlineStep exec env) (program, start fun _ _ => 0) downAtExit = some ([], x) ∧
    x.dev = .freed ∧ Off x.pk := by
  obtain ⟨x, hrun, hdev, hup⟩ : ∃ x,
      Machine.run (outlineStep exec env) (program, start fun _ _ => 0) downAtExit = some ([], x) ∧
        x.dev = .freed ∧ x.up = false := ⟨_, rfl, rfl, rfl⟩
  exact ⟨x, hrun, hdev, (timer_while_up _ hrun).2.1 hup⟩

end Interface
end Pb173
