/-
What `find_hid_kbd_ep` finds in a well-formed configuration descriptor.

Such a descriptor is a header and a list of descriptors behind it, each as long as its
first byte says.  The walk carries two variables from one to the next; they are what it
has to know of the interface descriptor passed last.  So what it returns is the first
endpoint with the right attributes whose nearest interface is a boot keyboard's.
-/
import Mathlib.Tactic.IntervalCases
import Mathlib.Data.List.GetD
import Amaterasu.Xhci.Descriptors

namespace Amaterasu

/-- A descriptor as long as its first byte says, and long enough for its type. -/
structure UsbDescriptor where
  bytes : List UInt8
  two_le : 2 ≤ bytes.length
  length_eq : bytes[0].toNat = bytes.length
  interface : bytes[1] = 0x04 → 9 ≤ bytes.length
  endpoint : bytes[1] = 0x05 → 7 ≤ bytes.length

/-- The header of a configuration descriptor. -/
structure ConfigHeader extends UsbDescriptor where
  nine_le : 9 ≤ bytes.length
  dtype_eq : bytes[1] = 0x02

namespace UsbDescriptor

variable (d : UsbDescriptor)

def field (i : Nat) : UInt8 := d.bytes.getD i 0

def dtype : UInt8 := d.field 1

def isInterface : Bool := d.dtype = 0x04

/-- An interface of class 3, subclass 1 and protocol 1. -/
def isBootKeyboard : Bool := d.field 5 == 0x03 && d.field 6 == 0x01 && d.field 7 == 0x01

/-- An endpoint with the IN bit and the interrupt attribute. -/
def isInterruptIn : Bool :=
  d.dtype = 0x05 ∧ d.field 2 &&& 0x80 ≠ 0 ∧ d.field 3 &&& 0x03 = 0x03

/-- `wMaxPacketSize`. -/
def maxPacketSize : UInt16 := (d.field 4).toUInt16 ||| ((d.field 5).toUInt16 <<< 8)

/-- What is returned for an endpoint of an interface. -/
def found (cfgVal : UInt8) (i e : UsbDescriptor) : HidKbdEp where
  cfgVal := cfgVal
  iface := i.field 2
  addr := e.field 2
  maxPkt := e.maxPacketSize &&& 0x7FF
  interval := e.field 6

variable {d}

theorem getElem?_field {i : Nat} (h : i < d.bytes.length) : d.bytes[i]? = some (d.field i) := by
  rw [field, List.getD_eq_getElem _ _ h, List.getElem?_eq_getElem h]

theorem field_zero : (d.field 0).toNat = d.bytes.length := by
  rw [← d.length_eq, field, List.getD_eq_getElem _ _ (Nat.lt_of_lt_of_le Nat.zero_lt_two d.two_le)]

theorem dtype_eq : d.dtype = d.bytes.get ⟨1, d.two_le⟩ := List.getD_eq_getElem _ _ d.two_le

theorem nine_le (h : d.dtype = 0x04) : 9 ≤ d.bytes.length := d.interface (dtype_eq.symm.trans h)

theorem seven_le (h : d.dtype = 0x05) : 7 ≤ d.bytes.length := d.endpoint (dtype_eq.symm.trans h)

theorem isInterruptIn_of_dtype (h : d.dtype ≠ 0x05) : d.isInterruptIn = false :=
  decide_eq_false fun hin => h hin.1

/-! ### The interface an endpoint belongs to -/

/-- The nearest interface descriptor in front of position `k`. -/
def nearest (ds : List UsbDescriptor) (k : Nat) : Option UsbDescriptor :=
  (ds.take k).reverse.find? isInterface

/-- Position `k` is an interrupt IN endpoint `e` of the boot keyboard interface `i`. -/
structure KbdEndpoint (ds : List UsbDescriptor) (k : Nat) (i e : UsbDescriptor) : Prop where
  here : ds[k]? = some e
  interruptIn : e.isInterruptIn
  nearest : nearest ds k = some i
  bootKeyboard : i.isBootKeyboard

/-- The nearest interface, when `cur` was the last one before the list. -/
def nearestFrom (cur : Option UsbDescriptor) (ds : List UsbDescriptor) (k : Nat) :
    Option UsbDescriptor := (nearest ds k).or cur

/-- The last interface behind a descriptor. -/
def last (cur : Option UsbDescriptor) (d : UsbDescriptor) : Option UsbDescriptor :=
  if d.isInterface then some d else cur

theorem nearestFrom_succ (cur : Option UsbDescriptor) (d : UsbDescriptor)
    (ds : List UsbDescriptor) (k : Nat) :
    nearestFrom cur (d :: ds) (k + 1) = nearestFrom (last cur d) ds k := by
  unfold nearestFrom nearest last
  rw [List.take_succ_cons, List.reverse_cons, List.find?_append, Option.or_assoc]
  congr 1
  cases h : d.isInterface with
  | true => rw [List.find?_cons_of_pos h]; rfl
  | false => rw [List.find?_cons_of_neg (by simp [h])]; rfl

/-- An endpoint as in `KbdEndpoint`, when `cur` was the last interface before the list. -/
structure KbdEndpointFrom (cur : Option UsbDescriptor) (ds : List UsbDescriptor) (k : Nat)
    (i e : UsbDescriptor) : Prop where
  here : ds[k]? = some e
  interruptIn : e.isInterruptIn
  nearest : nearestFrom cur ds k = some i
  bootKeyboard : i.isBootKeyboard

variable {cur : Option UsbDescriptor} {ds : List UsbDescriptor} {k : Nat} {i e : UsbDescriptor}

theorem kbdEndpointFrom_none : KbdEndpointFrom none ds k i e ↔ KbdEndpoint ds k i e := by
  have hnear : nearestFrom none ds k = UsbDescriptor.nearest ds k := Option.or_none
  exact ⟨fun ⟨h₁, h₂, h₃, h₄⟩ => ⟨h₁, h₂, hnear.symm.trans h₃, h₄⟩,
    fun ⟨h₁, h₂, h₃, h₄⟩ => ⟨h₁, h₂, hnear.trans h₃, h₄⟩⟩

theorem kbdEndpointFrom_succ :
    KbdEndpointFrom cur (d :: ds) (k + 1) i e ↔ KbdEndpointFrom (last cur d) ds k i e := by
  have hnear := nearestFrom_succ cur d ds k
  exact ⟨fun ⟨h₁, h₂, h₃, h₄⟩ => ⟨h₁, h₂, hnear.symm.trans h₃, h₄⟩,
    fun ⟨h₁, h₂, h₃, h₄⟩ => ⟨h₁, h₂, hnear.trans h₃, h₄⟩⟩

/-- The first endpoint of a boot keyboard interface, with the interface. -/
def firstFrom (cur : Option UsbDescriptor) : List UsbDescriptor →
    Option (UsbDescriptor × UsbDescriptor)
  | [] => none
  | d :: ds =>
      match cur.filter fun i => d.isInterruptIn && i.isBootKeyboard with
      | some i => some (i, d)
      | none => firstFrom (last cur d) ds

theorem kbdEndpointFrom_zero : KbdEndpointFrom cur (d :: ds) 0 i e ↔
    d = e ∧ cur.filter (fun i => d.isInterruptIn && i.isBootKeyboard) = some i := by
  rw [Option.filter_eq_some_iff, Bool.and_eq_true]
  constructor
  · rintro ⟨hhere, hin, hnear, hboot⟩
    obtain rfl := Option.some.inj hhere
    exact ⟨rfl, hnear, hin, hboot⟩
  · rintro ⟨rfl, hnear, hin, hboot⟩
    exact ⟨rfl, hin, hnear, hboot⟩

/-- `firstFrom` finds the first, -/
theorem firstFrom_some (h : firstFrom cur ds = some (i, e)) :
    ∃ k, KbdEndpointFrom cur ds k i e ∧ ∀ k' < k, ∀ i' e', ¬ KbdEndpointFrom cur ds k' i' e' := by
  induction ds generalizing cur with
  | nil => exact absurd h (by simp [firstFrom])
  | cons d ds ih =>
      unfold firstFrom at h
      split at h
      · rename_i i' hfilter
        obtain ⟨rfl, rfl⟩ := Prod.mk.inj (Option.some.inj h)
        exact ⟨0, kbdEndpointFrom_zero.mpr ⟨rfl, hfilter⟩,
          fun k' hk' => absurd hk' (Nat.not_lt_zero k')⟩
      · rename_i hnone
        obtain ⟨k, hk, hfirst⟩ := ih h
        refine ⟨k + 1, kbdEndpointFrom_succ.mpr hk, ?_⟩
        rintro (_ | k') hk' i' e' hcontra
        · rw [kbdEndpointFrom_zero, hnone] at hcontra
          exact absurd hcontra.2 (by simp)
        · exact hfirst k' (Nat.lt_of_succ_lt_succ hk') i' e' (kbdEndpointFrom_succ.mp hcontra)

/-- and one if there is one. -/
theorem firstFrom_none (h : firstFrom cur ds = none) (k : Nat) (i e : UsbDescriptor) :
    ¬ KbdEndpointFrom cur ds k i e := by
  induction ds generalizing cur k with
  | nil => exact fun hcontra => absurd hcontra.here (by simp)
  | cons d ds ih =>
      unfold firstFrom at h
      split at h
      · exact absurd h (by simp)
      · rename_i hnone
        cases k with
        | zero =>
            rw [kbdEndpointFrom_zero, hnone]
            exact fun hcontra => absurd hcontra.2 (by simp)
        | succ k =>
            rw [kbdEndpointFrom_succ]
            exact ih h k

/-! ### The walk -/

/-- What the two variables of the walk say of the last interface. -/
def Carried (cur : Option UsbDescriptor) (inHidKbd : Bool) (iface : UInt8) : Prop :=
  inHidKbd = cur.any isBootKeyboard ∧ ∀ i, cur = some i → i.isBootKeyboard → iface = i.field 2

variable {pre post : List UInt8} {cfgVal iface : UInt8} {inHidKbd : Bool}

/-- The flag says that an endpoint here is the keyboard's. -/
theorem Carried.filter_eq_some (h : Carried cur inHidKbd iface) (hin : d.isInterruptIn)
    (hkbd : inHidKbd) : ∃ i, cur.filter (fun i => d.isInterruptIn && i.isBootKeyboard) = some i ∧
      iface = i.field 2 := by
  obtain ⟨i, hi, hb⟩ := (Option.any_eq_true _ _).mp (h.1.symm.trans hkbd)
  exact ⟨i, Option.filter_eq_some_iff.mpr ⟨hi, by rw [hin, hb]; rfl⟩, h.2 i hi hb⟩

theorem Carried.filter_eq_none (h : Carried cur inHidKbd iface)
    (hnot : ¬ (d.isInterruptIn = true ∧ inHidKbd = true)) :
    cur.filter (fun i => d.isInterruptIn && i.isBootKeyboard) = none := by
  rw [Option.filter_eq_none_iff]
  intro i hi hb
  rw [Bool.and_eq_true] at hb
  exact hnot ⟨hb.1, h.1.trans ((Option.any_eq_true _ _).mpr ⟨i, hi, hb.2⟩)⟩

/-- A field of a descriptor behind some bytes. -/
theorem getElem?_within {k : Nat} (h : k < d.bytes.length) :
    (pre ++ (d.bytes ++ post))[pre.length + k]? = some (d.field k) := by
  rw [List.getElem?_append_right (Nat.le_add_right _ _), Nat.add_sub_cancel_left,
    List.getElem?_append_left h, getElem?_field h]

theorem hidKbdIface_within (h : d.dtype = 0x04) (iface : UInt8) :
    hidKbdIface (pre ++ (d.bytes ++ post)) pre.length iface
      = some (d.isBootKeyboard, if d.isBootKeyboard then d.field 2 else iface) := by
  have hlen := nine_le h
  unfold hidKbdIface
  rw [getElem?_within (by omega), getElem?_within (by omega), getElem?_within (by omega),
    getElem?_within (by omega)]
  rfl

theorem hidKbdEndpoint_within (h : d.dtype = 0x05) (cfgVal iface : UInt8) :
    hidKbdEndpoint (pre ++ (d.bytes ++ post)) pre.length cfgVal iface
      = some (if d.isInterruptIn then
          some ⟨cfgVal, iface, d.field 2, d.maxPacketSize &&& 0x7FF, d.field 6⟩ else none) := by
  have hlen := seven_le h
  unfold hidKbdEndpoint
  rw [getElem?_within (by omega), getElem?_within (by omega), getElem?_within (by omega),
    getElem?_within (by omega), getElem?_within (by omega)]
  simp only [Option.bind_eq_bind, Option.bind_some, isInterruptIn, h, true_and, decide_eq_true_eq]
  split <;> rfl

/-- One turn of the walk. -/
theorem walkDescriptors_within :
    walkDescriptors (pre ++ (d.bytes ++ post)) cfgVal pre.length inHidKbd iface =
      if d.isInterface then
        walkDescriptors (pre ++ (d.bytes ++ post)) cfgVal (pre.length + d.bytes.length)
          d.isBootKeyboard (if d.isBootKeyboard then d.field 2 else iface)
      else if d.isInterruptIn ∧ inHidKbd then
        some (some ⟨cfgVal, iface, d.field 2, d.maxPacketSize &&& 0x7FF, d.field 6⟩)
      else
        walkDescriptors (pre ++ (d.bytes ++ post)) cfgVal (pre.length + d.bytes.length)
          inHidKbd iface := by
  have htwo := d.two_le
  have hlen : (pre ++ (d.bytes ++ post)).length
      = pre.length + (d.bytes.length + post.length) := by
    rw [List.length_append, List.length_append]
  have hzero : (pre ++ (d.bytes ++ post))[pre.length]? = some (d.field 0) :=
    getElem?_within (k := 0) (by omega)
  rw [walkDescriptors, dif_pos (by omega), hzero, getElem?_within (by omega)]
  simp only [Option.bind_eq_bind, Option.bind_some, field_zero]
  rw [dif_neg (by omega)]
  by_cases hiface : d.dtype = 0x04
  · rw [if_pos ⟨hiface, nine_le hiface⟩, hidKbdIface_within hiface,
      if_pos (show d.isInterface = true from decide_eq_true hiface)]
    rfl
  · rw [if_neg fun h => hiface h.1, if_neg (show ¬ d.isInterface = true by
      rw [isInterface, decide_eq_false hiface]; exact Bool.false_ne_true)]
    by_cases hend : d.dtype = 0x05
    · rw [hidKbdEndpoint_within hend]
      cases inHidKbd with
      | false =>
          rw [if_neg fun h => Bool.false_ne_true h.2.2, if_neg fun h => Bool.false_ne_true h.2]
      | true =>
          rw [if_pos ⟨hend, seven_le hend, rfl⟩]
          cases hin : d.isInterruptIn with
          | false => rfl
          | true => rfl
    · rw [if_neg fun h => hend h.1, isInterruptIn_of_dtype hend,
        if_neg (fun h => Bool.false_ne_true h.1)]

/-- The walk over well-formed descriptors. -/
theorem walkDescriptors_eq (ds : List UsbDescriptor) (hcarried : Carried cur inHidKbd iface) :
    walkDescriptors (pre ++ ds.flatMap bytes) cfgVal pre.length inHidKbd iface
      = some ((firstFrom cur ds).map fun r => found cfgVal r.1 r.2) := by
  induction ds generalizing pre cur inHidKbd iface with
  | nil =>
      rw [List.flatMap_nil, List.append_nil, walkDescriptors, dif_neg (by omega)]
      rfl
  | cons d ds ih =>
      -- The rest of the list, as the walk finds it behind this descriptor.
      have hrest : ∀ {cur' inHidKbd' iface'}, Carried cur' inHidKbd' iface' →
          walkDescriptors (pre ++ (d.bytes ++ ds.flatMap bytes)) cfgVal
              (pre.length + d.bytes.length) inHidKbd' iface'
            = some ((firstFrom cur' ds).map fun r => found cfgVal r.1 r.2) := by
        intro cur' inHidKbd' iface' hcarried
        rw [← List.append_assoc, ← List.length_append]
        exact ih hcarried
      rw [List.flatMap_cons, walkDescriptors_within, firstFrom, last]
      cases hiface : d.isInterface with
      | true =>
          have h4 : d.dtype = 0x04 := of_decide_eq_true hiface
          have hin : d.isInterruptIn = false := isInterruptIn_of_dtype (by rw [h4]; decide)
          have hnone := hcarried.filter_eq_none (d := d) fun h => by simp [hin] at h
          rw [hnone, if_pos rfl, if_pos rfl]
          refine hrest ⟨rfl, fun i hi hb => ?_⟩
          rw [← Option.some.inj hi] at hb ⊢
          exact if_pos hb
      | false =>
          rw [if_neg Bool.false_ne_true, if_neg Bool.false_ne_true]
          by_cases hhere : d.isInterruptIn = true ∧ inHidKbd = true
          · obtain ⟨i, hfilter, hnum⟩ := hcarried.filter_eq_some hhere.1 hhere.2
            rw [if_pos hhere, hfilter, hnum]
            rfl
          · rw [if_neg hhere, hcarried.filter_eq_none hhere]
            exact hrest hcarried

end UsbDescriptor

open UsbDescriptor

/-- A header is passed over. -/
theorem findHidKbdEp_eq (header : ConfigHeader) (ds : List UsbDescriptor) :
    findHidKbdEp (header.bytes ++ ds.flatMap bytes)
      = some ((firstFrom none ds).map fun r => found (header.field 5) r.1 r.2) := by
  have hnine := header.nine_le
  have hdtype : header.dtype = 0x02 := UsbDescriptor.dtype_eq.trans header.dtype_eq
  have hiface : header.isInterface = false := by rw [isInterface, hdtype]; rfl
  have hin : header.isInterruptIn = false := isInterruptIn_of_dtype (by rw [hdtype]; decide)
  have hfive : (header.bytes ++ ds.flatMap bytes)[5]? = some (header.field 5) := by
    rw [List.getElem?_append_left (by omega), getElem?_field (by omega)]
  have hstep : walkDescriptors ([] ++ (header.bytes ++ ds.flatMap bytes)) (header.field 5)
      ([] : List UInt8).length false 0 = _ := walkDescriptors_within
  rw [hiface, hin, if_neg Bool.false_ne_true, if_neg fun h => Bool.false_ne_true h.1,
    List.length_nil, Nat.zero_add, List.nil_append] at hstep
  unfold findHidKbdEp
  rw [if_neg (by rw [List.length_append]; omega), hfive, Option.bind_eq_bind, Option.bind_some,
    hstep]
  exact walkDescriptors_eq ds ⟨rfl, fun i hi => absurd hi (by simp)⟩

/-- **The endpoint of the boot keyboard.**  No byte slice makes the walk go out of range.
In a well-formed configuration descriptor it finds an endpoint exactly when one with the
IN bit and the interrupt attribute has a boot keyboard's interface as its nearest, and
then it returns the fields of the first such endpoint and of its interface.
-/
theorem findHidKbdEp_reading :
    (∀ cfg, ∃ r, findHidKbdEp cfg = some r) ∧
      ∀ (header : ConfigHeader) (ds : List UsbDescriptor),
        ∃ r, findHidKbdEp (header.bytes ++ ds.flatMap bytes) = some r ∧
          (r.isSome ↔ ∃ k i e, KbdEndpoint ds k i e) ∧
          ∀ ep, r = some ep → ∃ k i e, KbdEndpoint ds k i e ∧
            (∀ k' < k, ∀ i' e', ¬ KbdEndpoint ds k' i' e') ∧ ep = found (header.field 5) i e := by
  refine ⟨findHidKbdEp_isSome, fun header ds => ?_⟩
  refine ⟨_, findHidKbdEp_eq header ds, ?_⟩
  simp only [← kbdEndpointFrom_none]
  cases hfirst : firstFrom none ds with
  | none =>
      refine ⟨iff_of_false (by simp) ?_, fun ep hep => absurd hep (by simp)⟩
      rintro ⟨k, i, e, h⟩
      exact firstFrom_none hfirst k i e h
  | some r =>
      obtain ⟨k, hk, hlt⟩ := firstFrom_some (i := r.1) (e := r.2) hfirst
      refine ⟨iff_of_true rfl ⟨k, r.1, r.2, hk⟩, fun ep hep => ?_⟩
      exact ⟨k, r.1, r.2, hk, hlt, (Option.some.inj hep).symm⟩

/-! A device with a mouse and a keyboard, the keyboard with an endpoint for its lights. -/

def compositeHeader : ConfigHeader where
  bytes := [9, 0x02, 66, 0, 2, 1, 0, 0xA0, 50]
  two_le := by decide
  length_eq := by decide
  interface := by decide
  endpoint := by decide
  nine_le := by decide
  dtype_eq := by decide

def interfaceDescriptor (number protocol : UInt8) : UsbDescriptor where
  bytes := [9, 0x04, number, 0, 1, 3, 1, protocol, 0]
  two_le := by simp
  length_eq := by simp
  interface := by simp
  endpoint := by simp

def hidDescriptor : UsbDescriptor where
  bytes := [9, 0x21, 0x11, 1, 0, 1, 0x22, 63, 0]
  two_le := by decide
  length_eq := by decide
  interface := by decide
  endpoint := by decide

def endpointDescriptor (addr interval : UInt8) : UsbDescriptor where
  bytes := [7, 0x05, addr, 3, 8, 0, interval]
  two_le := by simp
  length_eq := by simp
  interface := by simp
  endpoint := by simp

def composite : List UsbDescriptor :=
  [interfaceDescriptor 0 2, hidDescriptor, endpointDescriptor 0x81 4,
    interfaceDescriptor 1 1, hidDescriptor, endpointDescriptor 0x02 8,
    endpointDescriptor 0x82 10]

/-- The mouse's endpoint is passed over, and the one the keyboard is written to. -/
theorem findHidKbdEp_reading_composite :
    findHidKbdEp (compositeHeader.bytes ++ composite.flatMap bytes)
      = some (some ⟨1, 1, 0x82, 8, 10⟩) := by
  obtain ⟨r, heq, hsome, hfound⟩ := findHidKbdEp_reading.2 compositeHeader composite
  have hkbd : KbdEndpoint composite 6 (interfaceDescriptor 1 1) (endpointDescriptor 0x82 10) :=
    ⟨rfl, by decide, rfl, by decide⟩
  obtain ⟨ep, rfl⟩ := Option.isSome_iff_exists.mp (hsome.mpr ⟨_, _, _, hkbd⟩)
  obtain ⟨k, i, e, ⟨hhere, hin, hnear, hboot⟩, hfirst, rfl⟩ := hfound ep rfl
  have hk : k ≤ 6 := Nat.not_lt.mp fun hlt => hfirst 6 hlt _ _ hkbd
  interval_cases k
  all_goals obtain rfl := Option.some.inj hhere
  · exact absurd hin (by decide)
  · exact absurd hin (by decide)
  · obtain rfl := Option.some.inj hnear
    exact absurd hboot (by decide)
  · exact absurd hin (by decide)
  · exact absurd hin (by decide)
  · exact absurd hin (by decide)
  · obtain rfl := Option.some.inj hnear
    exact heq

end Amaterasu
