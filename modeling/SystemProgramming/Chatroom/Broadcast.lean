import SystemProgramming.Chatroom.Slots

/-!
# What the clients of the chat server receive

A broadcast goes through the slots under the mutex. A client whose slot stays open meanwhile is
written to when the loop comes to its slot, and, since no other slot holds its descriptor, never
else. Broadcasts follow each other, and so do their frames in what a client receives.

## Main definitions

* `Connected`: a client has a slot, and its thread has not closed the descriptor
* `World.part`: what a client has received of a broadcast
* `Delivery`: how much of a broadcast the clients have received

## Main results

* `delivery_step`: every step keeps track of a broadcast
* `correct_iff`: slots are right and clients that stay receive each broadcast once and in one
  order, exactly as long as the accept loop stores free descriptors
* `not_correct_reused`: two slots with one descriptor, and a client that receives a frame twice
-/

namespace SystemProgramming.Chatroom

variable {w w' : World} {i j : Slot} {fd : Descriptor} {c : Connection} {b : Nat}
  {m : List UInt8}

/-- A client has a slot, and the thread of the slot has not closed its descriptor. -/
def Connected (w : World) (c : Connection) : Prop :=
  ∃ i fd, w.clients i = some fd ∧ w.table fd = some c ∧ (w.pc i).Open

/-- What a client has received of the broadcast `b`. -/
def World.part (w : World) (b : Nat) (c : Connection) : List (Nat × List UInt8) :=
  (w.received c).filter fun p => p.1 = b

/-- The frame of a message: its size and its bytes. -/
def frame (b : Nat) (m : List UInt8) : List (Nat × List UInt8) :=
  [(b, networkSize m.length), (b, m)]

/-- How much of the broadcast `b` of `m` a client in the slot `i` has received, by where the
thread is that sends it. -/
def Sent (w : World) (b : Nat) (m : List UInt8) (i : Slot) (c : Connection) : Pc → Prop
  | .writing n m' rest => n = b → m' = m ∧ w.part b c = if i ∈ rest then [] else frame b m
  | .writingBody n m' k rest => n = b → m' = m ∧ w.part b c =
      if i ∈ rest then [] else if i = k then [(b, networkSize m.length)] else frame b m
  | _ => True

/-- **The track of a broadcast**, for a client that had a slot when it began. -/
structure Delivery (w : World) (b : Nat) (m : List UInt8) (c : Connection) : Prop where
  old : c < w.connections
  begun : b < w.broadcasts
  stored : ∀ fd, w.server.pending = some fd → w.table fd ≠ some c
  progress : ∀ i fd, w.clients i = some fd → w.table fd = some c → (w.pc i).Open →
    (∀ j, Sent w b m i c (w.pc j)) ∧
    ((∀ j, (w.pc j).number ≠ some b) → w.part b c = frame b m)

/-! ## Kinds of steps -/

theorem Sent.congr (hpart : w'.part b c = w.part b c) {p : Pc} (h : Sent w b m i c p) :
    Sent w' b m i c p := by
  cases p <;> simp only [Sent, hpart] at h ⊢ <;> exact h

theorem sent_of_number {p : Pc} (h : p.number ≠ some b) : Sent w b m i c p := by
  cases p with
  | writing n m' rest => exact fun hn => (h (by rw [← hn]; rfl)).elim
  | writingBody n m' k rest => exact fun hn => (h (by rw [← hn]; rfl)).elim
  | _ => trivial

/-- A step that sends nothing of the broadcast, and gives the client no new slot. -/
theorem Delivery.other (hd : Delivery w b m c) (hconnections : w.connections ≤ w'.connections)
    (hbroadcasts : w.broadcasts ≤ w'.broadcasts)
    (hstored : ∀ fd, w'.server.pending = some fd → w'.table fd ≠ some c)
    (hslots : ∀ i fd, w'.clients i = some fd → w'.table fd = some c → (w'.pc i).Open →
      w.clients i = some fd ∧ w.table fd = some c ∧ (w.pc i).Open)
    (hpart : w'.part b c = w.part b c)
    (hpc : ∀ j, w'.pc j = w.pc j ∨ ((w.pc j).number ≠ some b ∧ (w'.pc j).number ≠ some b)) :
    Delivery w' b m c where
  old := lt_of_lt_of_le hd.old hconnections
  begun := lt_of_lt_of_le hd.begun hbroadcasts
  stored := hstored
  progress := by
    intro i fd hfd hc ho
    obtain ⟨hfd, hc, ho⟩ := hslots i fd hfd hc ho
    obtain ⟨hsent, hdone⟩ := hd.progress i fd hfd hc ho
    refine ⟨fun j => ?_, fun hnone => ?_⟩
    · rcases hpc j with heq | ⟨-, hnumber⟩
      · rw [heq]
        exact (hsent j).congr hpart
      · exact sent_of_number hnumber
    · rw [hpart]
      apply hdone
      intro j
      rcases hpc j with heq | ⟨hnumber, -⟩
      · rw [← heq]
        exact hnone j
      · exact hnumber

/-- A thread moves on without sending anything of the broadcast. -/
theorem Delivery.move (hd : Delivery w b m c) {p : Pc} (hclients : w'.clients = w.clients)
    (htable : w'.table = w.table) (hserver : w'.server = w.server)
    (hconnections : w'.connections = w.connections) (hbroadcasts : w.broadcasts ≤ w'.broadcasts)
    (hpc : w'.pc = Function.update w.pc i p) (hopen : p.Open → (w.pc i).Open)
    (hnumber : (w.pc i).number ≠ some b) (hp : p.number ≠ some b)
    (hpart : w'.part b c = w.part b c) : Delivery w' b m c := by
  refine hd.other hconnections.ge hbroadcasts ?_ ?_ hpart ?_
  · rw [hserver, htable]
    exact hd.stored
  · intro j fd h hc ho
    rw [hclients] at h
    rw [htable] at hc
    refine ⟨h, hc, ?_⟩
    by_cases hj : j = i
    · rw [hj, hpc, Function.update_self] at ho
      exact hj ▸ hopen ho
    · rwa [hpc, Function.update_of_ne hj] at ho
  · intro j
    by_cases hj : j = i
    · rw [hj, hpc, Function.update_self]
      exact Or.inr ⟨hnumber, hp⟩
    · rw [hpc, Function.update_of_ne hj]
      exact Or.inl rfl

theorem part_write (w : World) (n : Nat) (bytes : List UInt8) (fd : Descriptor) (b : Nat)
    (c : Connection) : (w.write n bytes fd).part b c =
      w.part b c ++ if n = b ∧ w.table fd = some c then [(n, bytes)] else [] := by
  rw [World.write]
  split
  · rename_i hnone
    rw [if_neg (by simp [hnone]), List.append_nil]
  · rename_i d hd
    by_cases hdc : d = c
    · by_cases hn : n = b <;> simp [World.part, hd, hdc, hn]
    · simp [World.part, hd, hdc, Function.update_of_ne (Ne.symm hdc)]

/-- A client is written to through its own slot only. -/
theorem Inv.part_write (hi : Inv w) {k : Slot} {fd' : Descriptor} (hfd : w.clients k = some fd)
    (hc : w.table fd = some c) (hfd' : w.clients j = some fd') (bytes : List UInt8) :
    (w.write b bytes fd').part b c = w.part b c ++ if k = j then [(b, bytes)] else [] := by
  rw [Chatroom.part_write]
  congr 1
  by_cases hk : k = j
  · obtain rfl : fd = fd' := Option.some.inj (hfd.symm.trans (hk ▸ hfd'))
    rw [if_pos ⟨rfl, hc⟩, if_pos hk]
  · rw [if_neg, if_neg hk]
    rintro ⟨-, hc'⟩
    obtain rfl := hi.table fd fd' c hc hc'
    exact hk (hi.slots.distinct k j fd hfd hfd')

/-! ## The thread that sends -/

/-- A round of the thread `i` in its broadcast `n`, which goes on at `p`, or ends. A client whose
slot is open gets what is due to it. -/
structure Sends (w w' : World) (i : Slot) (n : Nat) (p : Pc) : Prop where
  effect : ∃ received mutex, w' =
    { w with received := received, mutex := mutex, pc := Function.update w.pc i p }
  next : p.number = some n ∨ p.number = none
  others : ∀ b c, n ≠ b → w'.part b c = w.part b c
  sent : ∀ m c k fd, w.clients k = some fd → w.table fd = some c → Sent w n m k c (w.pc i) →
    Sent w' n m k c p ∧ (p.number ≠ some n → w'.part n c = frame n m)

section Rounds

variable {n : Nat} {message : List UInt8} {rest : List Slot}

/-- The loop has been through all slots. -/
theorem sends_end (hpc : w.pc i = .writing n message []) :
    Sends w { w with mutex := none, pc := Function.update w.pc i .reading } i n .reading where
  effect := ⟨_, _, rfl⟩
  next := Or.inr rfl
  others := fun _ _ _ => rfl
  sent := by
    intro m c k fd hfd hc hsent
    rw [hpc] at hsent
    have hpart := (hsent rfl).2
    rw [if_neg List.not_mem_nil] at hpart
    exact ⟨trivial, fun _ => hpart⟩

/-- A slot without an open descriptor is left out. -/
theorem sends_skip (hpc : w.pc i = .writing n message (j :: rest))
    (hskip : ∀ fd, w.clients j = some fd → w.table fd = none) :
    Sends w { w with pc := Function.update w.pc i (.writing n message rest) } i n
      (.writing n message rest) where
  effect := ⟨_, _, rfl⟩
  next := Or.inl rfl
  others := fun _ _ _ => rfl
  sent := by
    intro m c k fd hfd hc hsent
    refine ⟨fun _ => ?_, fun hne => absurd rfl hne⟩
    rw [hpc] at hsent
    obtain ⟨hm, hpart⟩ := hsent rfl
    -- the slot of the client is another one
    have hk : k ≠ j := by
      rintro rfl
      rw [hskip fd hfd] at hc
      cases hc
    exact ⟨hm, hpart.trans (by simp [hk])⟩

/-- The size of the message goes to a slot. -/
theorem sends_size (hi : Inv w) (hpc : w.pc i = .writing n message (j :: rest))
    (hfd : w.clients j = some fd) :
    Sends w { w.write n (networkSize message.length) fd with
      pc := Function.update w.pc i (.writingBody n message j rest) } i n
      (.writingBody n message j rest) where
  effect := by
    obtain ⟨received, heq⟩ := write_frame w n (networkSize message.length) fd
    exact ⟨received, w.mutex, by rw [heq]⟩
  next := Or.inl rfl
  others := by
    intro b c hn
    have hpart := Chatroom.part_write w n (networkSize message.length) fd b c
    rwa [if_neg fun h => hn h.1, List.append_nil] at hpart
  sent := by
    intro m c k fd' hfd' hc hsent
    refine ⟨fun _ => ?_, fun hne => absurd rfl hne⟩
    have hloop := hi.loop i
    rw [hpc] at hloop hsent
    obtain ⟨hm, hpart⟩ := hsent rfl
    have hwrite := hi.part_write (b := n) hfd' hc hfd (networkSize message.length)
    rw [hpart] at hwrite
    refine ⟨hm, hwrite.trans ?_⟩
    by_cases hk : k = j
    · have hrest : k ∉ rest := hk ▸ (List.nodup_cons.mp hloop).1
      simp [hk, hm, hk ▸ hrest]
    · simp [hk]

/-- The message goes to a slot whose size has been sent. -/
theorem sends_body (hi : Inv w) (hpc : w.pc i = .writingBody n message j rest)
    (hfd : w.clients j = some fd) :
    Sends w { w.write n message fd with
      pc := Function.update w.pc i (.writing n message rest) } i n (.writing n message rest) where
  effect := by
    obtain ⟨received, heq⟩ := write_frame w n message fd
    exact ⟨received, w.mutex, by rw [heq]⟩
  next := Or.inl rfl
  others := by
    intro b c hn
    have hpart := Chatroom.part_write w n message fd b c
    rwa [if_neg fun h => hn h.1, List.append_nil] at hpart
  sent := by
    intro m c k fd' hfd' hc hsent
    refine ⟨fun _ => ?_, fun hne => absurd rfl hne⟩
    have hloop := hi.loop i
    rw [hpc] at hloop hsent
    obtain ⟨hm, hpart⟩ := hsent rfl
    have hwrite := hi.part_write (b := n) hfd' hc hfd message
    rw [hpart] at hwrite
    refine ⟨hm, hwrite.trans ?_⟩
    by_cases hk : k = j
    · have hrest : k ∉ rest := hk ▸ (List.nodup_cons.mp hloop).1
      simp [hk, hm, hk ▸ hrest, frame]
    · simp [hk]

/-- The slot has been cleared since its size was sent. -/
theorem sends_gone (hpc : w.pc i = .writingBody n message j rest) (hfd : w.clients j = none) :
    Sends w { w with pc := Function.update w.pc i (.writing n message rest) } i n
      (.writing n message rest) where
  effect := ⟨_, _, rfl⟩
  next := Or.inl rfl
  others := fun _ _ _ => rfl
  sent := by
    intro m c k fd' hfd' hc hsent
    refine ⟨fun _ => ?_, fun hne => absurd rfl hne⟩
    rw [hpc] at hsent
    obtain ⟨hm, hpart⟩ := hsent rfl
    have hk : k ≠ j := by
      rintro rfl
      rw [hfd] at hfd'
      cases hfd'
    rw [if_neg hk] at hpart
    exact ⟨hm, hpart⟩

/-- **A round of a broadcast.** -/
theorem work_sends (hi : Inv w) (h : work w i = some w') (hnumber : (w.pc i).number = some n) :
    ∃ p, Sends w w' i n p := by
  cases hpc : w.pc i with
  | writing n' message rest =>
    obtain rfl : n' = n := by simpa [hpc, Pc.number] using hnumber
    cases rest with
    | nil =>
      simp only [work, hpc] at h
      obtain rfl := Option.some.inj h
      exact ⟨_, sends_end hpc⟩
    | cons j rest =>
      simp only [work, hpc] at h
      cases hfd : w.clients j with
      | none =>
        rw [hfd] at h
        obtain rfl := Option.some.inj h
        exact ⟨_, sends_skip hpc (by simp [hfd])⟩
      | some fd =>
        rw [hfd] at h
        dsimp only at h
        split_ifs at h with hclosed
        · obtain rfl := Option.some.inj h
          exact ⟨_, sends_skip hpc (by simpa [hfd] using hclosed)⟩
        · obtain rfl := Option.some.inj h
          exact ⟨_, sends_size hi hpc hfd⟩
  | writingBody n' message j rest =>
    obtain rfl : n' = n := by simpa [hpc, Pc.number] using hnumber
    simp only [work, hpc] at h
    cases hfd : w.clients j with
    | none =>
      rw [hfd] at h
      obtain rfl := Option.some.inj h
      exact ⟨_, sends_gone hpc hfd⟩
    | some fd =>
      rw [hfd] at h
      obtain rfl := Option.some.inj h
      exact ⟨_, sends_body hi hpc hfd⟩
  | _ => simp [hpc, Pc.number] at hnumber

/-- The thread that sends the broadcast. -/
theorem Sends.delivery_self {p : Pc} (hs : Sends w w' i b p) (hi : Inv w)
    (hd : Delivery w b m c) (hnumber : (w.pc i).number = some b) : Delivery w' b m c := by
  obtain ⟨received, mutex, heq⟩ := hs.effect
  have hpc : w'.pc = Function.update w.pc i p := by rw [heq]
  have hserver : w'.server = w.server := by rw [heq]
  have htable : w'.table = w.table := by rw [heq]
  have hclients : w'.clients = w.clients := by rw [heq]
  have hconnections : w'.connections = w.connections := by rw [heq]
  have hbroadcasts : w'.broadcasts = w.broadcasts := by rw [heq]
  refine ⟨hconnections ▸ hd.old, hbroadcasts ▸ hd.begun, ?_, ?_⟩
  · rw [hserver, htable]
    exact hd.stored
  intro k fd hfd hc ho
  rw [hclients] at hfd
  rw [htable] at hc
  have hopen : (w.pc k).Open := by
    by_cases hk : k = i
    · rw [hk]
      cases hpc : w.pc i <;> rw [hpc] at hnumber <;> trivial
    · rwa [hpc, Function.update_of_ne hk] at ho
  obtain ⟨hsent, hend⟩ := hs.sent m c k fd hfd hc ((hd.progress k fd hfd hc hopen).1 i)
  refine ⟨fun j => ?_, fun hnone => hend ?_⟩
  · by_cases hj : j = i
    · rw [hj, hpc, Function.update_self]
      exact hsent
    · -- no other thread is in the broadcast
      rw [hpc, Function.update_of_ne hj]
      exact sent_of_number fun h => hj (hi.number_unique (.of_number hnumber) h)
  · have hnone := hnone i
    rwa [hpc, Function.update_self] at hnone

/-- A thread that sends another broadcast. -/
theorem Sends.delivery_other {p : Pc} (hs : Sends w w' i n p) (hd : Delivery w b m c)
    (hnumber : (w.pc i).number = some n) (hn : n ≠ b) : Delivery w' b m c := by
  obtain ⟨received, mutex, heq⟩ := hs.effect
  have hpart := hs.others b c hn
  rw [heq] at hpart ⊢
  refine hd.move rfl rfl rfl rfl le_rfl rfl (fun _ => ?_) ?_ ?_ hpart
  · cases hpc : w.pc i <;> rw [hpc] at hnumber <;> trivial
  · rw [hnumber]
    exact fun hb => hn (Option.some.inj hb)
  · rcases hs.next with hp | hp
    · rw [hp]
      exact fun hb => hn (Option.some.inj hb)
    · rw [hp]
      simp

end Rounds

/-! ## Every step -/

theorem delivery_work (hi : Inv w) (hd : Delivery w b m c) (h : work w i = some w') :
    Delivery w' b m c := by
  by_cases hsending : ∃ n, (w.pc i).number = some n
  · obtain ⟨n, hnumber⟩ := hsending
    obtain ⟨p, hs⟩ := work_sends hi h hnumber
    by_cases hn : n = b
    · exact Sends.delivery_self (hn ▸ hs) hi hd (hn ▸ hnumber)
    · exact hs.delivery_other hd hnumber hn
  -- the thread is not in a broadcast
  cases hpc : w.pc i with
  | idle => simp [work, hpc] at h
  | reading => simp [work, hpc] at h
  | wantWrite message =>
    simp only [work, hpc] at h
    split_ifs at h
    obtain rfl := Option.some.inj h
    refine hd.move (i := i) rfl rfl rfl rfl (Nat.le_succ _) rfl (by rw [hpc]; exact id)
      (by rw [hpc]; simp [Pc.number]) ?_ rfl
    -- the number of a new broadcast is new
    intro hb
    exact hd.begun.ne (Option.some.inj hb).symm
  | writing n message rest => exact (hsending ⟨n, by rw [hpc]; rfl⟩).elim
  | writingBody n message j rest => exact (hsending ⟨n, by rw [hpc]; rfl⟩).elim
  | closing =>
    simp only [work, hpc] at h
    split at h
    · obtain rfl := Option.some.inj h
      exact hd.move (i := i) rfl rfl rfl rfl le_rfl rfl (fun h => h.elim)
        (by rw [hpc]; simp [Pc.number]) (by simp [Pc.number]) rfl
    · rename_i fd hfd
      obtain rfl := Option.some.inj h
      have htable : ∀ a d, Function.update w.table fd none a = some d → w.table a = some d := by
        intro a d h
        by_cases ha : a = fd
        · simp [ha] at h
        · rwa [Function.update_of_ne ha] at h
      refine hd.other le_rfl le_rfl (fun a ha hc => hd.stored a ha (htable a c hc)) ?_ rfl ?_
      · intro k a hk hc ho
        refine ⟨hk, htable a c hc, ?_⟩
        by_cases hki : k = i
        · simp only [hki, Function.update_self] at ho
          exact ho.elim
        · simpa only [Function.update_of_ne hki] using ho
      · intro k
        by_cases hki : k = i
        · rw [hki, hpc]
          dsimp only
          rw [Function.update_self]
          simp [Pc.number]
        · exact Or.inl (Function.update_of_ne hki _ _)
  | wantClear =>
    simp only [work, hpc] at h
    split_ifs at h
    obtain rfl := Option.some.inj h
    exact hd.move (i := i) rfl rfl rfl rfl le_rfl rfl (fun h => h.elim) (by rw [hpc]; simp [Pc.number])
      (by simp [Pc.number]) rfl
  | clearing =>
    simp only [work, hpc] at h
    obtain rfl := Option.some.inj h
    refine hd.other le_rfl le_rfl hd.stored ?_ rfl ?_
    · intro k a hk hc ho
      dsimp only at hk ho
      by_cases hki : k = i
      · simp [hki] at hk
      · rw [Function.update_of_ne hki] at hk ho
        exact ⟨hk, hc, ho⟩
    · intro k
      by_cases hki : k = i
      · rw [hki, hpc]
        dsimp only
        rw [Function.update_self]
        simp [Pc.number]
      · exact Or.inl (Function.update_of_ne hki _ _)

/-- **Every step keeps the track of a broadcast.** -/
theorem delivery_step {e : Event} (hi : Inv w) (hd : Delivery w b m c) (h : step w e = some w') :
    Delivery w' b m c := by
  cases e with
  | accept fd =>
    simp only [step] at h
    split_ifs at h
    obtain rfl := Option.some.inj h
    have htable : ∀ a, Function.update w.table fd (some w.connections) a = some c →
        w.table a = some c := by
      intro a h
      by_cases ha : a = fd
      · rw [ha, Function.update_self] at h
        exact (hd.old.ne (Option.some.inj h).symm).elim
      · rwa [Function.update_of_ne ha] at h
    refine hd.other (Nat.le_succ _) le_rfl ?_ (fun i a hfd hc ho => ⟨hfd, htable a hc, ho⟩) rfl
      fun _ => Or.inl rfl
    intro a ha hc
    obtain rfl : fd = a := Option.some.inj ha
    dsimp only at hc
    rw [Function.update_self] at hc
    exact hd.old.ne (Option.some.inj hc).symm
  | serve =>
    cases hserver : w.server with
    | accepting => simp [step, serve, hserver] at h
    | wantRegister fd =>
      simp only [step, serve, hserver] at h
      split_ifs at h
      obtain rfl := Option.some.inj h
      refine hd.other le_rfl le_rfl ?_ (fun i a hfd hc ho => ⟨hfd, hc, ho⟩) rfl fun _ => Or.inl rfl
      exact fun a ha => hd.stored a (by rw [hserver]; exact ha)
    | registering fd =>
      have hstored := hd.stored fd (by rw [hserver]; rfl)
      simp only [step, serve, hserver] at h
      obtain rfl := Option.some.inj h
      rw [World.register]
      split_ifs with hcount
      · refine hd.other le_rfl le_rfl (fun _ ha => by simp [ServerPc.pending] at ha) ?_ rfl
          fun _ => Or.inl rfl
        intro i a hfd hc ho
        refine ⟨hfd, ?_, ho⟩
        by_cases ha : a = fd
        · simp [World.close, ha] at hc
        · simpa [World.close, Function.update_of_ne ha] using hc
      · obtain ⟨id, hfind, hid⟩ := hi.slots.exists_free hcount
        have hidle := (hi.idle id).mpr hid
        simp only [hfind]
        refine hd.other le_rfl le_rfl (fun _ ha => by simp [ServerPc.pending] at ha) ?_ rfl ?_
        · -- the new slot is not the client's, whose descriptor is not the one that is stored
          intro i a hfd hc ho
          dsimp only at hfd ho
          by_cases hii : i = id
          · rw [hii, Function.update_self] at hfd
            exact (hstored (Option.some.inj hfd ▸ hc)).elim
          · rw [Function.update_of_ne hii] at hfd ho
            exact ⟨hfd, hc, ho⟩
        · intro i
          by_cases hii : i = id
          · rw [hii, hidle]
            dsimp only
            rw [Function.update_self]
            simp [Pc.number]
          · exact Or.inl (Function.update_of_ne hii _ _)
  | message i message =>
    simp only [step] at h
    split_ifs at h with hcond
    obtain rfl := Option.some.inj h
    exact hd.move (i := i) rfl rfl rfl rfl le_rfl rfl (fun _ => by rw [hcond.1]; trivial)
      (by rw [hcond.1]; simp [Pc.number]) (by simp [Pc.number]) rfl
  | gone i =>
    simp only [step] at h
    split_ifs at h with hcond
    obtain rfl := Option.some.inj h
    exact hd.move (i := i) rfl rfl rfl rfl le_rfl rfl (fun _ => by rw [hcond]; trivial)
      (by rw [hcond]; simp [Pc.number]) (by simp [Pc.number]) rfl
  | work i => exact delivery_work hi hd h

/-- A broadcast begins. -/
theorem delivery_begin (hi : Inv w) (hpc : w.pc i = .wantWrite m) (h : work w i = some w')
    (hc : Connected w' c) : Delivery w' w.broadcasts m c := by
  simp only [work, hpc] at h
  split_ifs at h with hmutex
  obtain rfl := Option.some.inj h
  obtain ⟨k, fd, hk, hfd, ho⟩ := hc
  have hopen : (w.pc k).Open := by
    by_cases hki : k = i
    · rw [hki, hpc]
      trivial
    · simpa only [Function.update_of_ne hki] using ho
  have hnone : World.part w w.broadcasts c = [] := by
    rw [World.part, List.filter_eq_nil_iff]
    intro p hp
    simpa using ((hi.order c).2 p hp).ne
  refine ⟨hi.fresh fd c hfd, Nat.lt_succ_self _, ?_, ?_⟩
  · -- a client with a slot is not one that has still to be stored
    intro a ha hac
    obtain rfl := hi.table a fd c hac hfd
    exact (hi.pending a ha).2 k hk hopen
  · intro l a hl hla hlo
    refine ⟨fun j => ?_, fun hnumber => ?_⟩
    · dsimp only
      by_cases hj : j = i
      · rw [hj, Function.update_self]
        intro _
        rw [if_pos (List.mem_finRange l)]
        exact ⟨rfl, hnone⟩
      · rw [Function.update_of_ne hj]
        apply sent_of_number
        intro hb
        have := hi.current j _ hb
        omega
    · have := hnumber i
      simp [Pc.number] at this

/-! ## Every run -/

/-- **What the server promises** in a run: slots are right; a client that is connected from the
beginning of a broadcast to its end receives its frame once; and frames come in the order of the
broadcasts, the same for all clients. -/
structure Correct (es : List Event) : Prop where
  slots : ∀ w, Visits step World.start es w → SlotsOk w
  once : ∀ pre post j w₀ w₁ w₂ m c, pre ++ .work j :: post <+: es →
    run step World.start pre = some w₀ → w₀.pc j = .wantWrite m →
    step w₀ (.work j) = some w₁ → run step w₁ post = some w₂ →
    (∀ k, (w₂.pc k).number ≠ some w₀.broadcasts) → Connected w₁ c → Connected w₂ c →
    w₂.part w₀.broadcasts c = frame w₀.broadcasts m
  order : ∀ w, Visits step World.start es w → InOrder w

theorem delivery_run {es pre post : List Event} {w₁ w₂ : World}
    (hinv : ∀ w, Visits step World.start es w → Inv w) (hpost : pre ++ post <+: es)
    (h₁ : run step World.start pre = some w₁) (h₂ : run step w₁ post = some w₂)
    (hd : Delivery w₁ b m c) : Delivery w₂ b m c := by
  induction post using List.reverseRecOn generalizing w₂ with
  | nil => exact Option.some.inj h₂ ▸ hd
  | append_singleton post e ih =>
    obtain ⟨v, hv, he⟩ := run_snoc_eq_some.mp h₂
    have hpre : pre ++ post <+: es := by
      rw [← List.append_assoc] at hpost
      exact (List.prefix_append _ _).trans hpost
    have hi : Inv v := hinv v ⟨pre ++ post, hpre, by rw [run_append, h₁]; exact hv⟩
    exact delivery_step hi (ih hpre hv) he

/-- **The chat server is correct exactly in the runs in which the accept loop never stores a
descriptor that a slot still holds.** -/
theorem correct_iff {es : List Event} (hrun : run step World.start es = some w) :
    Correct es ↔ ∀ w e, Takes step World.start es w e → DescriptorFree w e := by
  rw [← slotsOk_iff hrun]
  refine ⟨fun h => h.slots, fun hslots => ?_⟩
  have hinv : ∀ w, Visits step World.start es w → Inv w :=
    forall_visits_of_takes inv_start (fun _ _ _ hi he h => inv_step hi he h)
      ((slotsOk_iff hrun).mp hslots)
  refine ⟨hslots, ?_, fun w hw => (hinv w hw).order⟩
  intro pre post j w₀ w₁ w₂ m c hpost h₀ hpc h₁ h₂ hdone hc₁ hc₂
  have hi₀ : Inv w₀ := hinv w₀ ⟨pre, (List.prefix_append _ _).trans hpost, h₀⟩
  have hd : Delivery w₂ w₀.broadcasts m c := by
    have hsplit : pre ++ .work j :: post = (pre ++ [.work j]) ++ post := by simp
    rw [hsplit] at hpost
    exact delivery_run hinv hpost (run_snoc_eq_some.mpr ⟨w₀, h₀, h₁⟩) h₂
      (delivery_begin hi₀ hpc h₁ hc₁)
  obtain ⟨i, fd, hfd, hc, ho⟩ := hc₂
  exact (hd.progress i fd hfd hc ho).2 hdone

/-- Two clients come and send a message each, and the first one leaves. -/
def twoClients : List Event :=
  [.accept 5, .serve, .serve, .accept 6, .serve, .serve, .message 0 [104, 105],
    .message 1 [111, 107]] ++ List.replicate 12 (.work 0) ++ List.replicate 12 (.work 1) ++
    [.gone 0, .work 0, .work 0, .work 0]

/-- A test for descriptors that are free when they are stored. -/
def descriptorCheck (w : World) : Event → Bool
  | .serve =>
    match w.server with
    | .registering fd => (List.finRange maxClients).all fun i => w.clients i ≠ some fd
    | _ => true
  | _ => true

/-- Both clients get both messages, in the same order. -/
theorem correct_iff_twoClients :
    (∃ w, run step World.start twoClients = some w ∧ ∀ c ∈ [0, 1],
      w.received c = frame 0 [104, 105] ++ frame 1 [111, 107]) ∧ Correct twoClients := by
  have hend : (run step World.start twoClients).map (fun w => (w.received 0, w.received 1)) =
      some (frame 0 [104, 105] ++ frame 1 [111, 107],
        frame 0 [104, 105] ++ frame 1 [111, 107]) := by
    decide +kernel
  obtain ⟨w, hrun, hreceived⟩ := Option.map_eq_some_iff.mp hend
  rw [Prod.mk.injEq] at hreceived
  refine ⟨⟨w, hrun, by simpa using hreceived⟩, ?_⟩
  -- no descriptor is used again in the run
  have hcheck : checkRun step descriptorCheck World.start twoClients = true := by
    decide +kernel
  rw [correct_iff hrun]
  intro w e he
  have hw := forall_takes_of_checkRun hcheck w e he
  cases e with
  | serve =>
    intro fd hserver _ i
    simp only [descriptorCheck, hserver, List.all_eq_true, decide_eq_true_eq] at hw
    exact hw i (List.mem_finRange i)
  | _ => trivial

/-- A client leaves, the next one gets its descriptor before its slot is cleared, and sends a
message. -/
def reused : List Event :=
  [.accept 5, .serve, .serve, .gone 0, .work 0, .accept 5, .serve, .serve,
    .message 1 [104, 105]] ++ List.replicate 12 (.work 1)

theorem not_correct_reused :
    (∃ w, run step World.start reused = some w ∧ w.clients 0 = some 5 ∧ w.clients 1 = some 5 ∧
      w.part 0 1 = frame 0 [104, 105] ++ frame 0 [104, 105]) ∧ ¬ Correct reused := by
  have hend : (run step World.start reused).map
      (fun w => (w.clients 0, w.clients 1, w.part 0 1)) =
        some (some 5, some 5, frame 0 [104, 105] ++ frame 0 [104, 105]) := by
    decide +kernel
  obtain ⟨w, hrun, hw⟩ := Option.map_eq_some_iff.mp hend
  simp only [Prod.mk.injEq] at hw
  refine ⟨⟨w, hrun, hw.1, hw.2.1, hw.2.2⟩, fun h => ?_⟩
  have hslots := (h.slots w (Visits.final hrun)).distinct 0 1 5 hw.1 hw.2.1
  exact absurd hslots (by decide)

end SystemProgramming.Chatroom
