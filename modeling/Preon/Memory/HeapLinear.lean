import Preon.Memory.HeapEffects

/-!
# The global allocator on many CPUs is the sequential one

Whatever the interleaving, the calls in the order in which they take effect are a run of the
sequential heap.
-/

namespace Preon.Memory

open Framework

/-! ## The relation -/

/-- The allocation that a call carries: until a deallocation has taken effect, and once an
allocation has. -/
def carriedBlock (op : Option HeapOp) : Option HeapEvent → Option (ℕ × AllocLayout)
  | some (.alloc layout (some ptr)) => some (ptr, layout)
  | some _ => none
  | none =>
      match op with
      | some (.dealloc ptr layout) => some (ptr, layout)
      | _ => none

/-- The block that a call of another user of the buddy allocator carries. -/
def carriedFrames (op : Option HeapOp) : Option HeapEvent → Option (ℕ × ℕ)
  | some (.other (.allocPages order (some pa))) => some (pa, order)
  | some _ => none
  | none =>
      match op with
      | some (.freePages pa order) => some (pa, order)
      | _ => none

namespace HeapMachine

open Slab Heap HeapRun HeapPc

variable {Cpu : Type*}

/-- The machine beside the sequential heap in which the calls `taken` have had their effect. -/
structure Related (c : HeapMachine Cpu) (calls : Cpu → Option HeapOp)
    (taken : Cpu → Option HeapEvent)
    (r : HeapRun) : Prop where
  cpu : ∀ x, (c.pc x).At c.shared r (calls x) (taken x)
  slab : Exclusive c.shared.slabLocked fun x => (c.pc x).slabHeld
  buddyLock : Exclusive c.shared.buddyLocked fun x => (c.pc x).buddyHeld
  free : c.shared.slabLocked = false → c.shared.heap = r.heap
  buddy : c.shared.heap.buddy = r.heap.buddy
  live : Custody r.live c.live fun x => carriedBlock (calls x) (taken x)
  others : Custody r.others c.others fun x => carriedFrames (calls x) (taken x)

variable {c : HeapMachine Cpu} {calls : Cpu → Option HeapOp} {taken : Cpu → Option HeapEvent}
  {r r' : HeapRun} {dramBase nrFrames : ℕ} {sh' : HeapShared} {x y : Cpu}

private theorem Related.frame (h : Related c calls taken r) (hsound : r.Sound dramBase nrFrames)
    (hbuddy : (c.pc y).buddyHeld = true → sh'.heap.buddy = c.shared.heap.buddy)
    (hup : c.shared.heap.buddy.isSome = true → sh'.heap.buddy.isSome = true)
    (hslab : (c.pc y).slabHeld = true → ∃ b f, sh'.heap = c.shared.heap.edit b f ∧
      r'.heap = r.heap.edit b f ∧ (∀ o, r.Reserved (taken y) o → Spares f o) ∧ Aside r r') :
    (c.pc y).At sh' r' (calls y) (taken y) := by
  obtain ⟨hop, hknows, ⟨h', hrest, hheld⟩, hreserved⟩ := h.cpu y
  by_cases hy : (c.pc y).slabHeld = true
  · obtain ⟨b, f, hheap, hrheap, hspares, haside⟩ := hslab hy
    refine ⟨hop, ?_, ⟨h'.edit b f, ?_, ?_⟩, fun o ho => (hreserved o ho).aside haside⟩
    · apply hknows.frame _ hbuddy hup
      rw [hheap]
      exact fun _ => rfl
    · rw [hheap]
      apply rest_edit hknows (fun o ho => hspares o (hreserved o ho)) _ hrest b
      intro layout node ht hc
      apply hspares
      have hcarried : carriedBlock (calls y) (taken y) = some (node, layout) := by
        rw [ht]
        rfl
      have hmem := h.live.carried_mem hcarried
      obtain ⟨s, m, nodes, hh⟩ := hsound.holds (List.ne_nil_of_mem hmem)
      rw [ht]
      exact hh.reserved_result hmem hc
    · intro _
      rw [hrheap, hheld hy]
  · rw [Bool.not_eq_true] at hy
    refine ⟨hop, ?_, ⟨sh'.heap, rest_outside hy hrest _, fun htrue => ?_⟩, ?_⟩
    · apply hknows.frame _ hbuddy hup
      rw [hy]
      exact fun hfalse => absurd hfalse Bool.false_ne_true
    · rw [hy] at htrue
      cases htrue
    · rw [footprint_outside hy]
      exact List.forall_mem_nil _

section Steps

variable [DecidableEq Cpu] {pages : List PageInfo} {e : HeapEvent} {pc' : HeapPc}
  {o : Option HeapOp}
  {t' : Option HeapEvent} {live' : List (ℕ × AllocLayout)} {others' : List (ℕ × ℕ)}

private theorem Related.move (h : Related c calls taken r) (hx : pc'.At sh' r' o t')
    (hy : ∀ y, y ≠ x → (c.pc y).At sh' r' (calls y) (taken y))
    (hslab : LockStep c.shared.slabLocked (c.pc x).slabHeld sh'.slabLocked pc'.slabHeld)
    (hlock : LockStep c.shared.buddyLocked (c.pc x).buddyHeld sh'.buddyLocked pc'.buddyHeld)
    (hfree : sh'.slabLocked = false → sh'.heap = r'.heap) (hbuddy : sh'.heap.buddy = r'.heap.buddy)
    (hlive : Custody r'.live live' (Function.update (fun y => carriedBlock (calls y) (taken y)) x
      (carriedBlock o t')))
    (hothers : Custody r'.others others'
      (Function.update (fun y => carriedFrames (calls y) (taken y)) x
      (carriedFrames o t'))) :
    Related ⟨sh', Function.update c.pc x pc', live', others'⟩ (Function.update calls x o)
      (Function.update taken x t') r' where
  cpu y := by
    dsimp only
    by_cases hyx : y = x
    · rw [hyx, Function.update_self, Function.update_self, Function.update_self]
      exact hx
    · rw [Function.update_of_ne hyx, Function.update_of_ne hyx, Function.update_of_ne hyx]
      exact hy y hyx
  slab := by
    simp only [Function.apply_update fun _ => HeapPc.slabHeld]
    exact h.slab.step hslab
  buddyLock := by
    simp only [Function.apply_update fun _ => HeapPc.buddyHeld]
    exact h.buddyLock.step hlock
  free := hfree
  buddy := hbuddy
  live := by
    simp only [Function.apply_update₂ fun _ => carriedBlock]
    exact hlive
  others := by
    simp only [Function.apply_update₂ fun _ => carriedFrames]
    exact hothers

private theorem Related.quiet (h : Related c calls taken r) (hsound : r.Sound dramBase nrFrames)
    (hsilent : (c.pc x).commits c.shared.heap = false)
    (hadv : (c.pc x).advance c.shared = some (sh', pc')) :
    Related { c.goto x pc' with shared := sh' } calls taken r := by
  obtain ⟨hop, hknows, ⟨h', hrest, hheld⟩, hreserved⟩ := h.cpu x
  have hquiet := quiet_advance hknows hrest hsilent hadv
  have houtside {pc : HeapPc} {heap : Heap} (hfalse : pc.slabHeld = false)
      (hrest : pc.rest heap = .ok (taken x, h')) : heap = h' := by
    have hsame := rest_outside hfalse hrest heap
    rw [hrest] at hsame
    exact (Prod.mk.inj (Except.ok.inj hsame)).2.symm
  have hx : pc'.At sh' r (calls x) (taken x) := by
    refine ⟨hquiet.op.trans hop, hquiet.knows, ⟨h', hquiet.rest, ?_⟩,
      fun o ho => hreserved o (hquiet.footprint o ho)⟩
    intro htrue
    cases hquiet.slab.holds htrue with
    | inl hbefore => exact hheld hbefore
    | inr hfree => rw [← houtside (h.slab.not_held hfree x) hrest, h.free hfree]
  have hy (y : Cpu) (hyx : y ≠ x) : (c.pc y).At sh' r (calls y) (taken y) := by
    apply h.frame hsound (fun _ => hquiet.buddy)
    · rw [hquiet.buddy]
      exact fun hup => hup
    · intro hslab
      have hsame := hquiet.outside (h.slab.ne_held hslab hyx.symm)
      exact ⟨c.shared.heap.buddy, id, hsame, by rw [h.buddy]; rfl, fun o _ => spares_id o, .refl r⟩
  have hfree (hfalse : sh'.slabLocked = false) : sh'.heap = r.heap := by
    cases hquiet.slab.frees hfalse with
    | inl hbefore => rw [hquiet.outside (h.slab.not_held hbefore x), h.free hbefore]
    | inr hrelease => rw [houtside hrelease.2 hquiet.rest, hheld hrelease.1]
  have hmove := h.move hx hy hquiet.slab hquiet.buddyLock hfree (hquiet.buddy.trans h.buddy)
    (h.live.same rfl) (h.others.same rfl)
  rwa [Function.update_eq_self, Function.update_eq_self] at hmove

private theorem custody_live (h : Custody r.live c.live fun y => carriedBlock (calls y) (taken y))
    (hstep : r.Step pages dramBase nrFrames e r') (hnodup : r'.live.Nodup) {op : HeapOp}
    (hop : calls x = some op) (hanswers : e.op = some op) (hnone : taken x = none) :
    Custody r'.live c.live (Function.update (fun y => carriedBlock (calls y) (taken y)) x
      (carriedBlock (calls x) (some e))) := by
  have hbefore :
      carriedBlock (calls x) (taken x) = carriedBlock (some op) none := by rw [hop, hnone]
  rw [hop]
  match e with
  | .install => cases hanswers
  | .write a bytes => cases hanswers
  | .alloc layout none =>
      obtain ⟨h', -, rfl⟩ := hstep
      cases hanswers
      exact h.same hbefore
  | .alloc layout (some ptr) =>
      obtain ⟨h', -, rfl⟩ := hstep
      cases hanswers
      exact h.handOut (List.nodup_cons.mp hnodup).1 hbefore
  | .dealloc ptr layout =>
      obtain ⟨-, h', -, rfl⟩ := hstep
      cases hanswers
      exact h.takeBack hbefore
  | .other (.freeRange start count) => cases hanswers
  | .other (.allocPages order result) =>
      obtain ⟨s, s', others, given, -, -, rfl⟩ := hstep
      cases hanswers
      exact h.same hbefore
  | .other (.freePages pa order) =>
      obtain ⟨s, s', others, given, -, -, rfl⟩ := hstep
      cases hanswers
      exact h.same hbefore

private theorem custody_others
    (h : Custody r.others c.others fun y => carriedFrames (calls y) (taken y))
    (hstep : r.Step pages dramBase nrFrames e r') (hnodup : r'.others.Nodup) {op : HeapOp}
    (hop : calls x = some op) (hanswers : e.op = some op) (hnone : taken x = none) :
    Custody r'.others c.others (Function.update (fun y => carriedFrames (calls y) (taken y)) x
      (carriedFrames (calls x) (some e))) := by
  have hbefore :
      carriedFrames (calls x) (taken x) = carriedFrames (some op) none := by rw [hop, hnone]
  rw [hop]
  match e with
  | .install => cases hanswers
  | .write a bytes => cases hanswers
  | .alloc layout none =>
      obtain ⟨h', -, rfl⟩ := hstep
      cases hanswers
      exact h.same hbefore
  | .alloc layout (some ptr) =>
      obtain ⟨h', -, rfl⟩ := hstep
      cases hanswers
      exact h.same hbefore
  | .dealloc ptr layout =>
      obtain ⟨-, h', -, rfl⟩ := hstep
      cases hanswers
      exact h.same hbefore
  | .other (.freeRange start count) => cases hanswers
  | .other (.allocPages order none) =>
      obtain ⟨s, s', others, given, -, ⟨-, hsame, -⟩, rfl⟩ := hstep
      cases hanswers
      cases hsame
      exact h.same hbefore
  | .other (.allocPages order (some pa)) =>
      obtain ⟨s, s', others, given, -, ⟨-, hcons, -⟩, rfl⟩ := hstep
      cases hanswers
      cases hcons
      exact h.handOut (List.nodup_cons.mp hnodup).1 hbefore
  | .other (.freePages pa order) =>
      obtain ⟨s, s', others, given, -, ⟨-, -, herase, -⟩, rfl⟩ := hstep
      cases hanswers
      cases herase
      exact h.takeBack hbefore

private theorem Related.effect (h : Related c calls taken r) (hsound : r.Sound dramBase nrFrames)
    (hsound' : r'.Sound dramBase nrFrames) (hnone : taken x = none)
    (hstep : r.Step pages dramBase nrFrames e r') {op : HeapOp} (hop : calls x = some op)
    (heffect : Effect c.shared (c.pc x) r sh' pc' e r') :
    Related { c.goto x pc' with shared := sh' } calls (Function.update taken x (some e)) r' := by
  have hcall := (h.cpu x).op
  have hanswers : e.op = some op := heffect.answers.trans (hcall.trans hop)
  have hat := heffect.at_next
  rw [hcall] at hat
  have hbuddy : sh'.heap.buddy = r'.heap.buddy := by
    by_cases hheld : (c.pc x).slabHeld = true
    · obtain ⟨h', hrest, hheap⟩ := hat.rest
      rw [← hheap (heffect.slabHeld.trans hheld), rest_buddy hat.knows hrest]
    · obtain ⟨b, hheap, hheap', -⟩ := heffect.outside (Bool.not_eq_true _ ▸ hheld)
      rw [hheap, hheap']
      rfl
  have hcalls : Function.update calls x (calls x) = calls := Function.update_eq_self x calls
  rw [← hcalls]
  apply h.move hat _ _ _ _ hbuddy (custody_live h.live hstep hsound'.live_nodup hop hanswers hnone)
    (custody_others h.others hstep hsound'.others_nodup hop hanswers hnone)
  · intro y hyx
    apply h.frame hsound _ heffect.up
    · intro hslab
      obtain ⟨b, hheap, hheap', haside⟩ := heffect.outside (h.slab.ne_held hslab hyx.symm)
      exact ⟨b, id, hheap, hheap', fun o _ => spares_id o, haside⟩
    · exact fun hheld => heffect.keep (h.buddyLock.ne_held hheld hyx.symm)
  · rw [heffect.slabHeld, heffect.slabLocked]
    exact .stay
  · rw [heffect.buddyHeld, heffect.buddyLocked]
    exact .stay
  · intro hfree
    rw [heffect.slabLocked] at hfree
    obtain ⟨b, hheap, hheap', -⟩ := heffect.outside (h.slab.not_held hfree x)
    rw [hheap, hheap', h.free hfree]

/-! ## Calls, returns and the environment -/

omit [DecidableEq Cpu] in
private theorem Related.idle (h : Related c calls taken r) (hidle : c.pc x = .idle) :
    calls x = none ∧ taken x = none := by
  obtain ⟨hop, -, ⟨h', hrest, -⟩, -⟩ := h.cpu x
  rw [hidle] at hop hrest
  exact ⟨hop.symm, (Prod.mk.inj (Except.ok.inj hrest)).1.symm⟩

/-- A call starts outside both locks. -/
structure Enters (h : Heap) (op : HeapOp) (pc : HeapPc) : Prop where
  op_eq : pc.op = some op
  knows : pc.Knows h
  slab : pc.slabHeld = false
  lock : pc.buddyHeld = false
  rest : pc.rest h = .ok (none, h)

private theorem enters_alloc (h : Heap) (layout : AllocLayout) :
    Enters h (.alloc layout) (HeapOp.enter (.alloc layout)) := by
  cases hc : classOf layout with
  | some idx =>
      have henter : HeapOp.enter (.alloc layout) = .lockAlloc layout idx := by
        rw [HeapOp.enter, HeapOp.start,
          show sizeClassIndex layout.size layout.align = some idx from hc]
        rfl
      rw [henter]
      exact ⟨rfl, hc, rfl, rfl, rfl⟩
  | none =>
      have henter : HeapOp.enter (.alloc layout) = .getBuddy (.largeAlloc layout) := by
        rw [HeapOp.enter, HeapOp.start, show sizeClassIndex layout.size layout.align = none from hc]
        rfl
      rw [henter]
      exact ⟨rfl, ⟨hc, trivial, rfl⟩, rfl, rfl, rfl⟩

private theorem enters_dealloc {h heap : Heap} {ptr : ℕ} {layout : AllocLayout}
    (hcall : ∃ h', heap.dealloc ptr layout = .ok h') :
    Enters h (.dealloc ptr layout) (HeapOp.enter (.dealloc ptr layout)) := by
  obtain ⟨h', hcall⟩ := hcall
  cases hc : classOf layout with
  | some idx =>
      have hclass : sizeClassIndex layout.size layout.align = some idx := hc
      rw [Heap.dealloc, hclass] at hcall
      obtain ⟨p, hp, -⟩ := bind_eq_ok.mp hcall
      have hptr : ptr ≠ 0 := by
        rintro rfl
        cases hp
      have henter : HeapOp.enter (.dealloc ptr layout) = .lockDealloc ptr layout idx := by
        rw [HeapOp.enter, HeapOp.start, hclass]
        simp only [if_neg hptr]
        rfl
      rw [henter]
      exact ⟨rfl, ⟨hc, hptr⟩, rfl, rfl, rfl⟩
  | none =>
      have hclass : sizeClassIndex layout.size layout.align = none := hc
      rw [Heap.dealloc, hclass] at hcall
      obtain ⟨pa, hpa, -⟩ := bind_eq_ok.mp hcall
      have henter :
          HeapOp.enter (.dealloc ptr layout) = .getBuddy (.largeDealloc ptr layout pa) := by
        rw [HeapOp.enter, HeapOp.start, hclass]
        simp only [hpa]
        rfl
      rw [henter]
      exact ⟨rfl, ⟨⟨hc, hpa⟩, trivial, rfl⟩, rfl, rfl, rfl⟩

omit [DecidableEq Cpu] in
private theorem Related.enters (h : Related c calls taken r) (hsound : r.Sound dramBase nrFrames)
    (hwin : dramBase + nrFrames * pageSize ≤ 2 ^ 46) {op : HeapOp} (hmay : c.MayCall op) :
    Enters c.shared.heap op op.enter := by
  cases op with
  | alloc layout => exact enters_alloc _ layout
  | dealloc ptr layout =>
      exact enters_dealloc ((hsound.returns hwin).2 ptr layout (h.live.kept_mem hmay))
  | allocPages order => exact ⟨rfl, ⟨trivial, trivial, hmay⟩, rfl, rfl, rfl⟩
  | freePages pa order =>
      have hout := h.others.kept_mem hmay
      have hup : c.shared.heap.buddy.isSome = true := by
        rw [h.buddy]
        cases hsound with
        | inl hfresh =>
            rw [hfresh.2.2.2.2] at hout
            cases hout
        | inr hholds =>
            obtain ⟨s, m, nodes, hh, -⟩ := hholds
            rw [hh.buddy]
            rfl
      exact ⟨rfl, ⟨trivial, trivial, hup⟩, rfl, rfl, rfl⟩

private theorem Related.call (h : Related c calls taken r) (hsound : r.Sound dramBase nrFrames)
    (hwin : dramBase + nrFrames * pageSize ≤ 2 ^ 46) {op : HeapOp} (hidle : c.pc x = .idle)
    (hmay : c.MayCall op) :
    Related ((c.handIn op).goto x op.enter) (Function.update calls x (some op)) taken r := by
  obtain ⟨hcall, hnone⟩ := h.idle hidle
  obtain ⟨hop, hknows, hslab, hlock, hrest⟩ := h.enters hsound hwin hmay
  have hx : op.enter.At c.shared r (some op) none :=
    ⟨hop, hknows, ⟨_, hrest, fun hheld => by rw [hslab] at hheld; cases hheld⟩,
      by rw [footprint_outside hslab]; exact List.forall_mem_nil _⟩
  have hblock : carriedBlock (calls x) (taken x) = none := by
    rw [hcall, hnone]
    rfl
  have hframes : carriedFrames (calls x) (taken x) = none := by
    rw [hcall, hnone]
    rfl
  have htaken : Function.update taken x none = taken := by
    rw [← hnone, Function.update_eq_self]
  have hmove {live' : List (ℕ × AllocLayout)} {others' : List (ℕ × ℕ)}
      (hlive : Custody r.live live' (Function.update (fun y => carriedBlock (calls y) (taken y)) x
        (carriedBlock (some op) none)))
      (hothers : Custody r.others others'
        (Function.update (fun y => carriedFrames (calls y) (taken y)) x
        (carriedFrames (some op) none))) :
      Related ⟨c.shared, Function.update c.pc x op.enter, live', others'⟩
        (Function.update calls x (some op)) taken r := by
    rw [← htaken]
    apply h.move hx (fun y _ => h.cpu y) _ _ h.free h.buddy hlive hothers
    · rw [hidle, hslab]
      exact .stay
    · rw [hidle, hlock]
      exact .stay
  cases op with
  | alloc layout => exact hmove (h.live.same hblock) (h.others.same hframes)
  | dealloc ptr layout => exact hmove (h.live.carryIn hmay hblock) (h.others.same hframes)
  | allocPages order => exact hmove (h.live.same hblock) (h.others.same hframes)
  | freePages pa order => exact hmove (h.live.same hblock) (h.others.carryIn hmay hframes)

private theorem Related.ret (h : Related c calls taken r) (hpc : c.pc x = .ret e) :
    taken x = some e ∧ Related ((c.receive e).goto x .idle) (Function.update calls x none)
      (Function.update taken x none) r := by
  have htaken : taken x = some e := by
    obtain ⟨-, -, ⟨h', hrest, -⟩, -⟩ := h.cpu x
    rw [hpc] at hrest
    exact (Prod.mk.inj (Except.ok.inj hrest)).1.symm
  refine ⟨htaken, ?_⟩
  have hx : HeapPc.idle.At c.shared r none none :=
    ⟨rfl, trivial, ⟨_, rfl, fun hheld => by cases hheld⟩, List.forall_mem_nil _⟩
  have hblock : carriedBlock (calls x) (taken x) = carriedBlock (calls x) (some e) := by rw [htaken]
  have hframes :
      carriedFrames (calls x) (taken x) = carriedFrames (calls x) (some e) := by rw [htaken]
  have hmove {live' : List (ℕ × AllocLayout)} {others' : List (ℕ × ℕ)}
      (hlive : Custody r.live live'
        (Function.update (fun y => carriedBlock (calls y) (taken y)) x none))
      (hothers : Custody r.others others'
        (Function.update (fun y => carriedFrames (calls y) (taken y)) x none)) :
      Related ⟨c.shared, Function.update c.pc x .idle, live', others'⟩
        (Function.update calls x none)
        (Function.update taken x none) r := by
    apply h.move hx (fun y _ => h.cpu y) _ _ h.free h.buddy hlive hothers
    · rw [hpc]
      exact .stay
    · rw [hpc]
      exact .stay
  match e with
  | .install => exact hmove (h.live.same hblock) (h.others.same hframes)
  | .write a bytes => exact hmove (h.live.same hblock) (h.others.same hframes)
  | .alloc layout none => exact hmove (h.live.same hblock) (h.others.same hframes)
  | .alloc layout (some ptr) => exact hmove (h.live.carryOut hblock) (h.others.same hframes)
  | .dealloc ptr layout => exact hmove (h.live.same hblock) (h.others.same hframes)
  | .other (.freeRange start count) => exact hmove (h.live.same hblock) (h.others.same hframes)
  | .other (.allocPages order none) => exact hmove (h.live.same hblock) (h.others.same hframes)
  | .other (.allocPages order (some pa)) =>
      exact hmove (h.live.same hblock) (h.others.carryOut hframes)
  | .other (.freePages pa order) => exact hmove (h.live.same hblock) (h.others.same hframes)

omit [DecidableEq Cpu] in
private theorem Related.environment (h : Related c calls taken r)
    (hsound : r.Sound dramBase nrFrames)
    {heap' : Heap} {others' : List (ℕ × ℕ)}
    (hkeep : ∀ y, (c.pc y).buddyHeld = true → heap'.buddy = c.shared.heap.buddy)
    (hup : c.shared.heap.buddy.isSome = true → heap'.buddy.isSome = true)
    {b : Option BuddyAllocator}
    {f : ByteMemory → ByteMemory} (hheap : heap' = c.shared.heap.edit b f)
    (hheap' : r'.heap = r.heap.edit b f) (hspares : ∀ y o, r.Reserved (taken y) o → Spares f o)
    (hpages : r'.pages = r.pages) (hlive : r'.live = r.live)
    (hothers : Custody r'.others others' fun x => carriedFrames (calls x) (taken x)) :
    Related { c with shared := { c.shared with heap := heap' }, others :=
      others' } calls taken r' where
  cpu y := by
    apply h.frame hsound (hkeep y) hup
    intro _
    exact ⟨b, f, hheap, hheap', hspares y, hpages, fun y hy _ => hlive ▸ hy⟩
  slab := h.slab
  buddyLock := h.buddyLock
  free hfree := by rw [hheap', ← h.free hfree, hheap]
  buddy := by
    rw [hheap', hheap]
    rfl
  live := by
    rw [hlive]
    exact h.live
  others := hothers

omit [DecidableEq Cpu] in
private theorem Related.install (hspan : FrameSpan dramBase nrFrames) (h : Related c calls taken r)
    (hsound : r.Sound dramBase nrFrames) (hdown : c.shared.heap.buddy = none) {p : PageRun}
    (hp : (pageSystem pages dramBase nrFrames).Reachable p) :
    ∃ r', r.Step pages dramBase nrFrames .install r' ∧
      Related { c with shared := c.shared.setBuddy p.allocator, others := p.live }
        calls taken r' := by
  have hnone : r.heap.buddy = none := h.buddy.symm.trans hdown
  have hfresh : r.Fresh := by
    cases hsound with
    | inl hfresh => exact hfresh
    | inr hholds =>
        obtain ⟨s, m, nodes, hh, -⟩ := hholds
        rw [hh.buddy] at hnone
        cases hnone
  refine ⟨_, ⟨hnone, p, hp, rfl⟩, ?_⟩
  apply h.environment hsound (b := some p.allocator) (f := id)
  · intro y hheld
    have hup := (h.cpu y).knows.buddy_up hheld
    rw [hdown] at hup
    cases hup
  · exact fun _ => rfl
  · rfl
  · rfl
  · exact fun _ o _ => spares_id o
  · rfl
  · rfl
  · have hempty := h.others
    rw [hfresh.2.2.2.2] at hempty
    exact .start hempty.carried_none (hfresh.install hspan hp).others_nodup

omit [DecidableEq Cpu] in
private theorem Related.spares (h : Related c calls taken r)
    (hsound : r.Sound dramBase nrFrames) {a n : ℕ}
    (hw : c.Writable a n) {y : Cpu} {o : ℕ} (ho : r.Reserved (taken y) o) : Clear a n o 8 := by
  cases hw with
  | inl hown =>
      obtain ⟨z, hz, hlo, hhi⟩ := hown
      have hmem := h.live.kept_mem hz
      obtain ⟨s, m, nodes, hh⟩ := hsound.holds (List.ne_nil_of_mem hmem)
      have hne : taken y ≠ some (.alloc z.2 (some z.1)) := by
        intro heq
        have hcarried : carriedBlock (calls y) (taken y) = some z := by
          rw [heq]
          rfl
        exact h.live.carried_ne hcarried hz rfl
      exact (hh.clear_reserved ho hmem hne).mono hlo hhi le_rfl le_rfl
  | inr hother =>
      obtain ⟨b, hb, hlo, hhi⟩ := hother
      have hmem := h.others.kept_mem hb
      cases hsound with
      | inl hfresh =>
          rw [hfresh.2.2.2.2] at hmem
          cases hmem
      | inr hholds =>
          obtain ⟨s, m, nodes, hh, -⟩ := hholds
          exact (hh.other_clear_reserved ho hmem).mono hlo hhi le_rfl le_rfl

omit [DecidableEq Cpu] in
private theorem Related.write (pages : List PageInfo) (h : Related c calls taken r)
    (hsound : r.Sound dramBase nrFrames) {a : ℕ} {bytes : List UInt8}
    (hw : c.Writable a bytes.length) :
    ∃ r', r.Step pages dramBase nrFrames (.write a bytes) r' ∧
      Related { c with shared := c.shared.setMemory (writeBytes c.shared.heap.memory a bytes) }
        calls taken r' := by
  have hwritable : r.Writable a bytes.length := by
    cases hw with
    | inl hown =>
        obtain ⟨z, hz, hin⟩ := hown
        exact .inl ⟨z, h.live.kept_mem hz, hin⟩
    | inr hother =>
        obtain ⟨b, hb, hin⟩ := hother
        exact .inr ⟨b, h.others.kept_mem hb, hin⟩
  refine ⟨_, ⟨hwritable, rfl⟩, ?_⟩
  apply h.environment hsound (b := c.shared.heap.buddy) (f := fun mem => writeBytes mem a bytes)
  · exact fun _ _ => rfl
  · exact fun hup => hup
  · rfl
  · rw [h.buddy]
    rfl
  · exact fun y o ho => spares_writeBytes (h.spares hsound hw ho)
  · rfl
  · rfl
  · exact h.others

private theorem linearizes (hspan : FrameSpan dramBase nrFrames)
    (hwin : dramBase + nrFrames * pageSize ≤ 2 ^ 46) :
    Linearizes (heapMachine Cpu pages dramBase nrFrames) (heapSystem pages dramBase nrFrames)
      (fun op e => e.op = some op) Related where
  init c hinit := by
    obtain ⟨hlists, hbuddy, hslab, hlock, hidle, hlive, hothers⟩ := hinit
    refine ⟨⟨c.shared.heap, [], [], [], []⟩, ⟨hlists, hbuddy, rfl, rfl, rfl⟩, ?_⟩
    constructor
    · intro x
      rw [hidle]
      exact ⟨rfl, trivial, ⟨_, rfl, fun hheld => by cases hheld⟩, List.forall_mem_nil _⟩
    · constructor <;> simp [hidle, slabHeld]
    · constructor <;> simp [hidle, buddyHeld]
    · exact fun _ => rfl
    · rfl
    · rw [hlive]
      exact .start (fun _ => rfl) List.nodup_nil
    · rw [hothers]
      exact .start (fun _ => rfl) List.nodup_nil
  call c c' calls taken r x op hr h hstep := by
    obtain ⟨hidle, hmay, rfl⟩ := hstep
    exact ⟨(h.idle hidle).2, h.call (sound_of_reachable hspan hr) hwin hidle hmay⟩
  work c c' calls taken r x hr h hstep := by
    obtain ⟨sh', pc', hadv, rfl⟩ := hstep
    have hsound := sound_of_reachable hspan hr
    cases hcommits : (c.pc x).commits c.shared.heap with
    | false => exact .inl (h.quiet hsound hcommits hadv)
    | true =>
        right
        have hlive (ptr : ℕ) (layout : AllocLayout) (hop : calls x = some (.dealloc ptr layout))
            (hnone : taken x = none) : (ptr, layout) ∈ r.live := by
          apply h.live.carried_mem (x := x)
          rw [hop, hnone]
          rfl
        have hothers (pa order : ℕ) (hop : calls x = some (.freePages pa order))
            (hnone : taken x = none) :
            (pa, order) ∈ r.others := by
          apply h.others.carried_mem (x := x)
          rw [hop, hnone]
          rfl
        obtain ⟨hnone, e, r', hstep, heffect⟩ :=
          (h.cpu x).exists_effect pages hsound hwin h.buddy hlive
          hothers hcommits hadv
        obtain ⟨op, hop⟩ := commits_op hcommits
        have hcall : calls x = some op := (h.cpu x).op.symm.trans hop
        have hsound' := sound_of_reachable hspan (hr.step hstep)
        exact ⟨op, e, r', hcall, heffect.answers.trans hop, hnone, hstep,
          h.effect hsound hsound' hnone hstep hcall heffect⟩
  ret c c' calls taken r x e _ h hstep := by
    obtain ⟨hpc, rfl⟩ := hstep
    exact h.ret hpc
  env c c' calls taken r e hr h hstep := by
    have hsound := sound_of_reachable hspan hr
    cases e with
    | install =>
        obtain ⟨hdown, p, hp, rfl⟩ := hstep
        exact h.install hspan hsound hdown hp
    | write a bytes =>
        obtain ⟨hw, rfl⟩ := hstep
        exact h.write pages hsound hw
    | alloc _ _ => cases hstep
    | dealloc _ _ => cases hstep
    | other _ => cases hstep

/-- In every interleaving each call takes effect at one moment between its call and its return, with
the result that it returns; the effects are a run of the sequential heap.  What callers hold is out
in that run, where ownership is exclusive; no CPU panics; and while the lock of the slab allocator
is free the heap is that of the run. -/
theorem linearizable (hspan : FrameSpan dramBase nrFrames)
    (hwin : dramBase + nrFrames * pageSize ≤ 2 ^ 46) {history : List (Action Cpu HeapOp HeapEvent)}
    (h : (heapMachine Cpu pages dramBase nrFrames).Reaches history c) :
    ∃ log r, Linearization (fun op e => e.op = some op) history log ∧
      (heapSystem pages dramBase nrFrames).Reaches ((log history.length).map Prod.snd) r ∧
      r.Ownership ∧ c.live.Subperm r.live ∧ c.others.Subperm r.others ∧ (∀ x, c.pc x ≠ .panicked) ∧
      (c.shared.slabLocked = false → c.shared.heap = r.heap) := by
  obtain ⟨log, taken, r, hlog, hr, hrel⟩ := (linearizes hspan hwin).reaches h
  refine ⟨log, r, hlog.linearization, hr,
    (sound_of_reachable hspan hr.reachable).ownership, ?_, ?_, ?_,
    hrel.free⟩
  · exact hrel.live.kept_nodup.subperm fun a ha => hrel.live.kept_mem ha
  · exact hrel.others.kept_nodup.subperm fun a ha => hrel.others.kept_mem ha
  · intro x hpanicked
    obtain ⟨-, -, ⟨h', hrest, -⟩, -⟩ := hrel.cpu x
    rw [hpanicked] at hrest
    cases hrest

/-- The machine after a sequence of steps of CPUs. -/
def works (c : HeapMachine Cpu) : List Cpu → Option (HeapMachine Cpu)
  | [] => some c
  | x :: xs => ((c.pc x).advance c.shared).bind fun next =>
      works { c.goto x next.2 with shared := next.1 } xs

private theorem reaches_works {history : List (Action Cpu HeapOp HeapEvent)}
    {c c' : HeapMachine Cpu}
    {xs : List Cpu} (h : (heapMachine Cpu pages dramBase nrFrames).Reaches history c)
    (hworks : c.works xs = some c') :
    (heapMachine Cpu pages dramBase nrFrames).Reaches (history ++ xs.map .work) c' := by
  induction xs generalizing history c with
  | nil =>
      cases hworks
      simpa using h
  | cons x xs ih =>
      obtain ⟨⟨sh, pc⟩, hadv, hworks⟩ := Option.bind_eq_some_iff.mp hworks
      have hstep : (heapMachine Cpu pages dramBase nrFrames).step c (.work x)
          { c.goto x pc with shared := sh } := ⟨sh, pc, hadv, rfl⟩
      simpa using ih (h.step hstep) hworks

end Steps

def twoPages : AllocLayout := ⟨6000, 16, by decide, ⟨4, rfl⟩, by decide⟩

def sixFresh : HeapMachine Bool :=
  ⟨⟨⟨emptyLists, none, fun _ => 0⟩, false, false⟩, fun _ => .idle, [], []⟩

/-- Six frames, of which another user holds the first two. -/
def sixMachine : HeapMachine Bool :=
  ⟨⟨⟨emptyLists, some sixFramePages.allocator, fun _ => 0⟩, false, false⟩, fun _ => .idle, [],
    sixFramePages.live⟩

/-- One CPU has called for half a page, the other for two. -/
def twoCalls : HeapMachine Bool :=
  (sixMachine.goto false (HeapOp.enter (.alloc halfPage))).goto true
    (HeapOp.enter (.alloc twoPages))

/-- The large allocation runs while the other CPU is carving its page. -/
def twoSchedule : List Bool :=
  List.replicate 9 false ++ List.replicate 5 true ++ List.replicate 7 false

private theorem twoCalls_works : ∃ c, twoCalls.works twoSchedule = some c ∧
    c.pc true = .ret (.alloc twoPages (some (0x40002000 + kernelLinearBase))) ∧
    c.pc false = .ret (.alloc halfPage (some (0x40004800 + kernelLinearBase))) := by
  refine ⟨_, rfl, ?_, ?_⟩
  · rfl
  · rfl

def sixFrameMachine : System (HeapMachine Bool) (Action Bool HeapOp HeapEvent) :=
  heapMachine Bool (List.replicate 6 default) 0x40000000 6

private theorem twoCalls_reaches : ∃ history, sixFrameMachine.Reaches history twoCalls := by
  have hinit : sixFrameMachine.init sixFresh := ⟨rfl, rfl, rfl, rfl, fun _ => rfl, rfl, rfl⟩
  have hinstall : sixFrameMachine.step sixFresh (.env .install) sixMachine :=
    ⟨rfl, _, sixFramePages_reachable, rfl⟩
  have hsmall : sixFrameMachine.step sixMachine (.call false (.alloc halfPage))
      (sixMachine.goto false (HeapOp.enter (.alloc halfPage))) := ⟨rfl, trivial, rfl⟩
  have hlarge : sixFrameMachine.step (sixMachine.goto false (HeapOp.enter (.alloc halfPage)))
      (.call true (.alloc twoPages)) twoCalls := ⟨rfl, trivial, rfl⟩
  exact ⟨_, (((System.Reaches.init hinit).step hinstall).step hsmall).step hlarge⟩

theorem linearizable_twoCpus :
    ∃ history c, sixFrameMachine.Reaches history c ∧
      c.pc true = .ret (.alloc twoPages (some (0x40002000 + kernelLinearBase))) ∧
      c.pc false = .ret (.alloc halfPage (some (0x40004800 + kernelLinearBase))) ∧
      ∃ log r, Linearization (fun op e => e.op = some op) history log ∧
        (heapSystem (List.replicate 6 default) 0x40000000 6).Reaches
          ((log history.length).map Prod.snd) r ∧ r.Ownership := by
  obtain ⟨history, hcalls⟩ := twoCalls_reaches
  obtain ⟨c, hworks, hlarge, hsmall⟩ := twoCalls_works
  have hreach := reaches_works hcalls hworks
  obtain ⟨log, r, hlog, hr, hown, -⟩ :=
    linearizable ⟨by decide, by decide, by decide⟩ (by decide) hreach
  exact ⟨_, c, hreach, hlarge, hsmall, log, r, hlog, hr, hown⟩

end HeapMachine

end Preon.Memory
