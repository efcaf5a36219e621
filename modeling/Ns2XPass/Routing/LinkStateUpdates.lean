import Ns2XPass.Routing.LinkStateHandlers

/-! # What is written into the link-state databases

The records of an origin list the same neighbours in the same order wherever they
are kept. An update then replaces the record, and a topology message replaces the
records that are older than its own.
-/

namespace Ns2XPass

namespace LsLink

variable {own b : Bool} {old new : LsLink} {done pre rest news : List LsLink}

/-- The neighbours of a list of link states. -/
def neighbors (l : List LsLink) : List ℤ := l.map fun x => x.neighborId

theorem updateIn_of_first (hn : new.neighborId ∉ neighbors done)
    (h : new.neighborId = old.neighborId) :
    updateIn own new (done ++ old :: rest) =
      (done ++ renew own old new :: rest, changed old new) := by
  induction done with
  | nil => exact if_pos h
  | cons d done ih =>
    obtain ⟨hd, hn⟩ := not_or.mp (mt List.mem_cons.mpr hn)
    rw [List.cons_append, updateIn, if_neg hd, ih hn]
    rfl

/-- New link states replace old ones one by one if the neighbours are the same. -/
theorem foldl_updateIn (own b : Bool) (done rest : List LsLink)
    (hnb : neighbors pre = neighbors news) (hnd : (neighbors done ++ neighbors news).Nodup) :
    news.foldl (fun r new => ((updateIn own new r.1).1, r.2 || (updateIn own new r.1).2))
        (done ++ (pre ++ rest), b) =
      (done ++ (List.zipWith (renew own) pre news ++ rest),
        b || (List.zipWith changed pre news).any id) := by
  induction news generalizing done pre b with
  | nil =>
    obtain rfl : pre = [] := List.map_eq_nil_iff.mp hnb
    simp
  | cons new news ih =>
    cases pre with
    | nil => simp [neighbors] at hnb
    | cons old pre =>
      obtain ⟨hon, hnb⟩ := List.cons.inj hnb
      have hnew : new.neighborId ∉ neighbors done := fun hm =>
        (List.nodup_append.mp hnd).2.2 _ hm _ List.mem_cons_self rfl
      have hnd' : (neighbors (done ++ [renew own old new]) ++ neighbors news).Nodup := by
        have hren : (renew own old new).neighborId = new.neighborId := hon
        simpa [neighbors, hren] using hnd
      have h := ih (b || changed old new) (done ++ [renew own old new]) hnb hnd'
      rw [List.foldl_cons, List.cons_append, updateIn_of_first hnew hon.symm]
      simp only [List.append_assoc, List.singleton_append] at h
      rw [h]
      simp [Bool.or_assoc]

theorem updateList_eq (own : Bool) (rest : List LsLink) (hnb : neighbors pre = neighbors news)
    (hnd : (neighbors news).Nodup) :
    updateList own (pre ++ rest) news =
      (List.zipWith (renew own) pre news ++ rest, (List.zipWith changed pre news).any id) := by
  have h := foldl_updateIn own false [] rest hnb hnd
  simpa [updateList] using h

theorem renew_false (h : old.neighborId = new.neighborId) : renew false old new = new := by
  unfold renew
  rw [h]
  rfl

theorem zipWith_renew_false (hnb : neighbors pre = neighbors news) :
    List.zipWith (renew false) pre news = news := by
  induction news generalizing pre with
  | nil => simp
  | cons new news ih =>
    cases pre with
    | nil => simp [neighbors] at hnb
    | cons old pre =>
      obtain ⟨hon, hnb⟩ := List.cons.inj hnb
      rw [List.zipWith_cons_cons, renew_false hon, ih hnb]

theorem neighbors_zipWith_renew (hnb : neighbors pre = neighbors news) :
    neighbors (List.zipWith (renew own) pre news) = neighbors pre := by
  induction news generalizing pre with
  | nil =>
    obtain rfl : pre = [] := List.map_eq_nil_iff.mp hnb
    rfl
  | cons new news ih =>
    cases pre with
    | nil => rfl
    | cons old pre =>
      obtain ⟨-, hnb⟩ := List.cons.inj hnb
      exact congrArg (old.neighborId :: ·) (ih hnb)

/-- The record of another node is replaced. -/
theorem updateList_false (hnb : neighbors pre = neighbors news) (hnd : (neighbors news).Nodup) :
    (updateList false pre news).1 = news := by
  have h := updateList_eq false [] hnb hnd
  rw [List.append_nil, List.append_nil] at h
  rw [h]
  exact zipWith_renew_false hnb

/-- A record keeps its neighbours if those of the news come first in it. -/
theorem neighbors_updateList (hnb : neighbors pre = neighbors news)
    (hnd : (neighbors news).Nodup) :
    neighbors (updateList own (pre ++ rest) news).1 = neighbors (pre ++ rest) := by
  rw [updateList_eq own rest hnb hnd]
  simp only [neighbors, List.map_append] at *
  rw [show List.map _ (List.zipWith (renew own) pre news) = List.map _ pre from
    neighbors_zipWith_renew hnb]

end LsLink

/-! ## Topology messages -/

namespace LsDatabase

variable {db : LsDatabase} {me o : ℤ} {r : ℤ × List LsLink} {records : List (ℤ × List LsLink)}

/-- What one record of a topology message does to a database. -/
def mergeRecord (me : ℤ) (db : LsDatabase) (r : ℤ × List LsLink) : LsDatabase :=
  if r.1 = me then db
  else if LsHost.Outdated db[r.1]? r.2 then Std.TreeMap.insert db r.1 r.2
  else db

def merge (me : ℤ) (db : LsDatabase) (records : List (ℤ × List LsLink)) : LsDatabase :=
  records.foldl (mergeRecord me) db

theorem get_mergeRecord : (mergeRecord me db r)[o]? =
    if o = r.1 ∧ o ≠ me ∧ LsHost.Outdated db[o]? r.2 then some r.2 else db[o]? := by
  unfold mergeRecord
  split
  · next h =>
    rw [if_neg]
    rintro ⟨rfl, hne, -⟩
    exact hne h
  · next h =>
    split
    · next hout =>
      rw [LsMap.get_insert]
      by_cases ho : r.1 = o
      · subst ho
        rw [if_pos rfl, if_pos ⟨rfl, h, hout⟩]
      · rw [if_neg ho, if_neg fun hc => ho hc.1.symm]
    · next hout =>
      rw [if_neg]
      rintro ⟨rfl, -, ho⟩
      exact hout ho

theorem get_merge_of_ne (me : ℤ) (db : LsDatabase) (h : ∀ r ∈ records, r.1 = o → o = me) :
    (merge me db records)[o]? = db[o]? := by
  unfold merge
  induction records generalizing db with
  | nil => rfl
  | cons r records ih =>
    obtain ⟨hr, h⟩ := List.forall_mem_cons.mp h
    rw [List.foldl_cons, ih _ h, get_mergeRecord, if_neg fun hc => hc.2.1 (hr hc.1.symm)]

/-- A record is taken over if the one in the database is outdated. -/
theorem get_merge_of_mem (hd : records.Pairwise fun a b => a.1 ≠ b.1) (hr : r ∈ records)
    (hne : r.1 ≠ me) : (merge me db records)[r.1]? =
      if LsHost.Outdated db[r.1]? r.2 then some r.2 else db[r.1]? := by
  unfold merge
  induction records generalizing db with
  | nil => simp at hr
  | cons a records ih =>
    obtain ⟨ha, hd⟩ := List.pairwise_cons.mp hd
    rw [List.foldl_cons]
    rcases List.mem_cons.mp hr with rfl | hr
    · have hrest := get_merge_of_ne me (mergeRecord me db r)
        fun b hb (he : b.1 = r.1) => absurd he.symm (ha b hb)
      unfold merge at hrest
      rw [hrest, get_mergeRecord]
      simp [hne]
    · have hget : (mergeRecord me db a)[r.1]? = db[r.1]? := by
        rw [get_mergeRecord, if_neg fun hc => ha r hr hc.1.symm]
      rw [ih hd hr, hget]

theorem pairwise_toList (db : LsDatabase) :
    (Std.TreeMap.toList db).Pairwise fun a b => a.1 ≠ b.1 := by
  have h := Std.TreeMap.distinct_keys_toList (t := db)
  simpa using h

/-- The database with the content of an advertisement. -/
def take (db : LsDatabase) (me : ℤ) (msg : LsMessage) : LsDatabase :=
  match msg.content with
  | .linkStates l => (db.update me msg.originNodeId l).1
  | .null => db
  | .topo _ => db

end LsDatabase

/-! ## What the handlers write -/

namespace LsHost

variable {h h' h₀ : LsHost} {now : ℚ} {fuel : ℕ} {msg : LsMessage} {senderId neighborId : ℤ}
  {db : LsDatabase} {x y : LsMap ℤ}

/-- What a node keeps and what it has written. No message with link states has been made. -/
structure Wrote (h₀ h : LsHost) (db : LsDatabase) (x y : LsMap ℤ) : Prop where
  me : h.node.myNodeId = h₀.node.myNodeId
  db : h.node.linkStateDatabase = db
  lsaHistory : h.node.lsaHistory = x
  tpmHistory : h.node.tpmHistory = y
  messages : ∀ (k : ℤ) m, h.center.lsaMessages[k]? = some m →
    h₀.center.lsaMessages[k]? = some m ∨ ∀ l, m.content ≠ .linkStates l

theorem wrote_self (h : LsHost) :
    Wrote h h h.node.linkStateDatabase h.node.lsaHistory h.node.tpmHistory :=
  ⟨rfl, rfl, rfl, rfl, fun _ _ hk => .inl hk⟩

theorem wrote_sending (h₀ : LsHost) (db : LsDatabase) (x y : LsMap ℤ) :
    Sending fun h => Wrote h₀ h db x y where
  sendMessage h d i hw := by
    unfold LsHost.sendMessage
    split
    · exact { hw with }
    · exact hw
  messageOut _ _ _ _ _ hw := { hw with }
  bufferedSend _ _ _ hw := { hw with }
  emptyBuffer _ hw := { hw with }
  cancelTimer _ _ hw := { hw with }
  create h n type fill r _ _ _ hcontent hw hc := by
    refine ⟨?_, ?_, ?_, ?_, fun k m hk => ?_⟩
    · rw [hc.node]; exact hw.me
    · rw [hc.node]; exact hw.db
    · rw [hc.node]; exact hw.lsaHistory
    · rw [hc.node]; exact hw.tpmHistory
    · rcases hc.kept k m hk with ⟨-, rfl⟩ | ⟨-, hk⟩
      · rw [hc.msg]
        exact .inr fun l => hcontent _ l rfl
      · exact hw.messages k m hk

theorem Wrote.computeRoutes (hw : Wrote h₀ h db x y) (hr : h.computeRoutes fuel = .ok h') :
    Wrote h₀ h' db x y := by
  obtain ⟨paths, -, hr⟩ := bind_eq_ok.mp hr
  obtain rfl := pure_eq_ok.mp hr
  exact { hw with }

/-- An advertisement is old, or it is written into the history and into the database. -/
theorem acceptLSA_cases (hm : h.center.lsaMessages[msg.messageId]? = some msg)
    (hr : h.acceptLSA now fuel senderId msg = .ok h') :
    h' = h ∧ (msg.originNodeId = h.node.myNodeId ∨
      (h.node.lsaHistory.isNewMessage msg).1 = false) ∨
    msg.originNodeId ≠ h.node.myNodeId ∧ (h.node.lsaHistory.isNewMessage msg).1 = true ∧
      Wrote h h' (h.node.linkStateDatabase.take h.node.myNodeId msg)
        (h.node.lsaHistory.isNewMessage msg).2 h.node.tpmHistory := by
  unfold LsHost.acceptLSA at hr
  split at hr
  · next ho => exact .inl ⟨(Except.ok.inj hr).symm, .inl ho⟩
  · next ho =>
    dsimp only at hr
    split at hr
    · next hnew =>
      refine .inr ⟨ho, hnew, ?_⟩
      have hstart : Wrote h
          { h with node := { h.node with lsaHistory := (h.node.lsaHistory.isNewMessage msg).2 } }
          h.node.linkStateDatabase (h.node.lsaHistory.isNewMessage msg).2 h.node.tpmHistory :=
        { wrote_self h with lsaHistory := rfl }
      have hw : Wrote h (LsHost.forward { h with node := { h.node with
          lsaHistory := (h.node.lsaHistory.isNewMessage msg).2 } } now senderId msg) _ _ _ :=
        (wrote_sending h _ _ _).forward hm hstart
      unfold LsHost.updateFrom at hr
      unfold LsDatabase.take
      cases hl : msg.content with
      | linkStates l =>
        rw [hl] at hr
        dsimp only at hr ⊢
        rw [hw.db, hw.me] at hr
        have hset := fun db => ({ hw with db := rfl } : Wrote h
          ((LsHost.forward { h with node := { h.node with
            lsaHistory := (h.node.lsaHistory.isNewMessage msg).2 } } now senderId msg).setDatabase
              db) db _ _)
        split at hr
        · exact (hset _).computeRoutes hr
        · exact Except.ok.inj hr ▸ hset _
      | null =>
        rw [hl] at hr
        exact Except.ok.inj hr ▸ hw
      | topo q =>
        rw [hl] at hr
        exact Except.ok.inj hr ▸ hw
    · next hnew => exact .inl ⟨(Except.ok.inj hr).symm, .inr (by simpa using hnew)⟩

theorem Wrote.takeRecord {b : Bool} {record : ℤ × List LsLink} {r : LsHost × Bool}
    (hw : Wrote h₀ h db x y) (hr : LsHost.takeRecord neighborId (h, b) record = .ok r) :
    Wrote h₀ r.1 (db.mergeRecord h₀.node.myNodeId record) x y ∧
      (record.1 ≠ h₀.node.myNodeId → record.2 ≠ []) := by
  unfold LsHost.takeRecord at hr
  unfold LsDatabase.mergeRecord
  rw [hw.me, hw.db] at hr
  split at hr
  · next hme =>
    obtain rfl := Except.ok.inj hr
    rw [if_pos hme]
    exact ⟨hw, fun hne => absurd hme hne⟩
  · next hme =>
    rw [if_neg hme]
    split at hr
    · simp at hr
    · next hempty =>
      refine ⟨?_, fun _ => hempty⟩
      split at hr
      · next hout =>
        obtain ⟨h₁, hregen, hr⟩ := bind_eq_ok.mp hr
        obtain rfl := pure_eq_ok.mp hr
        rw [if_pos hout]
        have hset : Wrote h₀ (h.setDatabase (Std.TreeMap.insert db record.1 record.2))
            (Std.TreeMap.insert db record.1 record.2) x y := { hw with db := rfl }
        exact (wrote_sending h₀ _ _ _).regenAndSend hset hregen
      · next hout =>
        obtain rfl := Except.ok.inj hr
        rw [if_neg hout]
        exact hw

theorem Wrote.takeRecords {b : Bool} {records : List (ℤ × List LsLink)} {r : LsHost × Bool}
    (hw : Wrote h₀ h db x y)
    (hr : records.foldlM (LsHost.takeRecord neighborId) (h, b) = .ok r) :
    Wrote h₀ r.1 (db.merge h₀.node.myNodeId records) x y ∧
      ∀ record ∈ records, record.1 ≠ h₀.node.myNodeId → record.2 ≠ [] := by
  induction records generalizing h b db with
  | nil =>
    obtain rfl := pure_eq_ok.mp hr
    exact ⟨hw, by simp⟩
  | cons record records ih =>
    rw [List.foldlM_cons] at hr
    obtain ⟨⟨h₁, b₁⟩, hone, hr⟩ := bind_eq_ok.mp hr
    obtain ⟨hw₁, hne⟩ := hw.takeRecord hone
    obtain ⟨hw₂, hrest⟩ := ih hw₁ hr
    exact ⟨hw₂, List.forall_mem_cons.mpr ⟨hne, hrest⟩⟩

/-- A topology message is old, or it is written into the history and into the database. -/
theorem acceptTopo_cases {databases : ℤ → LsDatabase}
    (hr : h.acceptTopo fuel databases neighborId msg = .ok h') :
    h' = h ∧ (h.node.tpmHistory.isNewMessage msg).1 = false ∨
    (h.node.tpmHistory.isNewMessage msg).1 = true ∧
      ((∀ q, msg.content ≠ .topo q) ∧ Wrote h h' h.node.linkStateDatabase h.node.lsaHistory
          (h.node.tpmHistory.isNewMessage msg).2 ∨
        ∃ q, msg.content = .topo q ∧
          Wrote h h' (h.node.linkStateDatabase.merge h.node.myNodeId
              (Std.TreeMap.toList (databases q)))
            h.node.lsaHistory (h.node.tpmHistory.isNewMessage msg).2 ∧
          ∀ record ∈ Std.TreeMap.toList (databases q), record.1 ≠ h.node.myNodeId →
            record.2 ≠ []) := by
  unfold LsHost.acceptTopo at hr
  dsimp only at hr
  split at hr
  · next hnew =>
    refine .inr ⟨hnew, ?_⟩
    have hstart : Wrote h
        { h with node := { h.node with tpmHistory := (h.node.tpmHistory.isNewMessage msg).2 } }
        h.node.linkStateDatabase h.node.lsaHistory (h.node.tpmHistory.isNewMessage msg).2 :=
      { wrote_self h with tpmHistory := rfl }
    split at hr
    · next hc => exact .inl ⟨by simp [hc], Except.ok.inj hr ▸ hstart⟩
    · next l hc => exact .inl ⟨by simp [hc], Except.ok.inj hr ▸ hstart⟩
    · next q hc =>
      obtain ⟨r, hfold, hr⟩ := bind_eq_ok.mp hr
      obtain ⟨hw, hne⟩ := hstart.takeRecords hfold
      refine .inr ⟨q, hc, ?_, hne⟩
      split at hr
      · exact hw.computeRoutes hr
      · exact pure_eq_ok.mp hr ▸ hw
  · next hnew => exact .inl ⟨(Except.ok.inj hr).symm, by simpa using hnew⟩

/-! ## What a node writes about itself -/

/-- A node has changed its own record only, and each advertisement that it has made is a copy. -/
structure Renewed (h₀ h : LsHost) : Prop where
  me : h.node.myNodeId = h₀.node.myNodeId
  lsaHistory : h.node.lsaHistory = h₀.node.lsaHistory
  tpmHistory : h.node.tpmHistory = h₀.node.tpmHistory
  others : ∀ o : ℤ, o ≠ h₀.node.myNodeId →
    h.node.linkStateDatabase[o]? = h₀.node.linkStateDatabase[o]?
  own : ∀ l, h.node.linkStateDatabase[h₀.node.myNodeId]? = some l →
    ∃ old, h₀.node.linkStateDatabase[h₀.node.myNodeId]? = some old ∧
      LsLink.neighbors l = LsLink.neighbors old
  messages : ∀ (k : ℤ) m l, h.center.lsaMessages[k]? = some m → m.content = .linkStates l →
    h₀.center.lsaMessages[k]? = some m ∨
      m.originNodeId = h₀.node.myNodeId ∧ l.head?.map (·.sequenceNumber) = some m.sequenceNumber ∧
        ∃ old, h₀.node.linkStateDatabase[h₀.node.myNodeId]? = some old ∧
          LsLink.neighbors l = LsLink.neighbors old

theorem renewed_self (h : LsHost) : Renewed h h :=
  ⟨rfl, rfl, rfl, fun _ _ => rfl, fun l hl => ⟨l, hl, rfl⟩, fun _ _ _ hk _ => .inl hk⟩

theorem renewed_sending (h₀ : LsHost) : Sending (Renewed h₀) where
  sendMessage h d i hw := by
    unfold LsHost.sendMessage
    split
    · exact { hw with }
    · exact hw
  messageOut _ _ _ _ _ hw := { hw with }
  bufferedSend _ _ _ hw := { hw with }
  emptyBuffer _ hw := { hw with }
  cancelTimer _ _ hw := { hw with }
  create h n type fill r _ _ _ hcontent hw hc := by
    refine ⟨?_, ?_, ?_, ?_, ?_, fun k m l hk hl => ?_⟩
    · rw [hc.node]; exact hw.me
    · rw [hc.node]; exact hw.lsaHistory
    · rw [hc.node]; exact hw.tpmHistory
    · rw [hc.node]; exact hw.others
    · rw [hc.node]; exact hw.own
    · rcases hc.kept k m hk with ⟨-, rfl⟩ | ⟨-, hk⟩
      · rw [hc.msg] at hl
        exact absurd hl (hcontent _ l rfl)
      · exact hw.messages k m l hk hl

/-- The sequence numbers of a list of link states are set. -/
theorem neighbors_stamp (own : List LsLink) (q : ℤ) :
    LsLink.neighbors (own.map fun l => { l with sequenceNumber := q }) = LsLink.neighbors own := by
  simp [LsLink.neighbors]

theorem Renewed.advertise {buffer : Bool} {own old : List LsLink} (hw : Renewed h₀ h)
    (hold : h₀.node.linkStateDatabase[h₀.node.myNodeId]? = some old)
    (hown : LsLink.neighbors own = LsLink.neighbors old) (hne : own ≠ [])
    (hr : h.advertise now buffer own = .ok h') : Renewed h₀ h' := by
  obtain ⟨r, hcreate, hr⟩ := bind_eq_ok.mp hr
  obtain rfl := pure_eq_ok.mp hr
  have hf : Fills fun msg : LsMessage => { msg with
    content := .linkStates (own.map fun l => { l with sequenceNumber := msg.sequenceNumber }) } :=
    ⟨fun _ => rfl, fun _ => rfl⟩
  have hc := created (.inl rfl) hf hcreate
  have hmsg := hc.msg
  refine Sending.foldl (fun _ _ => (renewed_sending h₀).advertiseTo) hc.stored
    ⟨?_, ?_, ?_, fun o ho => ?_, fun l hl => ⟨old, hold, ?_⟩, fun k m l hk hl => ?_⟩
  · exact (congrArg LsRouting.myNodeId hc.node).trans hw.me
  · exact (congrArg LsRouting.lsaHistory hc.node).trans hw.lsaHistory
  · exact (congrArg LsRouting.tpmHistory hc.node).trans hw.tpmHistory
  · simp only [setDatabase]
    rw [LsMap.get_insert, hw.me, if_neg (Ne.symm ho)]
    exact hw.others o ho
  · simp only [setDatabase] at hl
    rw [LsMap.get_insert, hw.me, if_pos rfl] at hl
    obtain rfl := Option.some.inj hl
    exact (neighbors_stamp own _).trans hown
  · rcases hc.kept k m hk with ⟨-, rfl⟩ | ⟨-, hk⟩
    · rw [hmsg] at hl ⊢
      obtain rfl := LsContent.linkStates.inj hl
      refine .inr ⟨hw.me, ?_, old, hold, (neighbors_stamp own _).trans hown⟩
      cases own with
      | nil => exact absurd rfl hne
      | cons a own => rfl
    · exact hw.messages k m l hk hl

theorem Renewed.sendLinkStates {buffer : Bool} (hw : Renewed h₀ h)
    (hr : h.sendLinkStates now buffer = .ok h') : Renewed h₀ h' := by
  unfold LsHost.sendLinkStates at hr
  split at hr
  · exact Except.ok.inj hr ▸ hw
  · split at hr
    · exact Except.ok.inj hr ▸ hw
    · next own hown =>
      split at hr
      · exact Except.ok.inj hr ▸ hw
      · next hne =>
        rw [hw.me] at hown
        obtain ⟨old', hold', hnb⟩ := hw.own own hown
        exact hw.advertise hold' hnb hne hr

/-- The new and the old link states have been compared to the end of the new ones. -/
theorem compareLinks_aligned {news olds : List LsLink}
    (hr : compareLinks news olds h = .ok h') :
    ∃ pre rest, olds = pre ++ rest ∧ LsLink.neighbors pre = LsLink.neighbors news := by
  induction news generalizing olds h with
  | nil => exact ⟨[], olds, rfl, rfl⟩
  | cons new news ih =>
    cases olds with
    | nil => simp [compareLinks] at hr
    | cons old olds =>
      unfold compareLinks at hr
      split at hr
      · simp at hr
      · next hnb =>
        have hrest : ∃ h₁ : LsHost, compareLinks news olds h₁ = .ok h' := by
          split at hr
          · exact ⟨_, hr⟩
          · split at hr
            · exact ⟨_, hr⟩
            · obtain ⟨h₁, -, hr⟩ := bind_eq_ok.mp hr
              exact ⟨h₁, hr⟩
        obtain ⟨h₁, hrest⟩ := hrest
        obtain ⟨pre, rest, rfl, hpre⟩ := ih hrest
        refine ⟨old :: pre, rest, rfl, ?_⟩
        have hnb := not_not.mp hnb
        simp only [LsLink.neighbors, List.map_cons] at hpre ⊢
        rw [hpre, hnb]

theorem Renewed.refresh {links old : List LsLink} (hlinks : h.node.linkStateList = links)
    (hw : Renewed h₀ h) (hdb : h.node.linkStateDatabase = h₀.node.linkStateDatabase)
    (hold : h.node.linkStateDatabase[h.node.myNodeId]? = some old)
    (hnb : ∀ own, LsLink.neighbors (LsLink.updateList own old links).1 = LsLink.neighbors old)
    (hr : h.refresh now fuel = .ok h') : Renewed h₀ h' := by
  have hset : Renewed h₀ (h.setDatabase
      (h.node.linkStateDatabase.update h.node.myNodeId h.node.myNodeId links).1) := by
    have hold' := hold
    rw [hdb, hw.me] at hold'
    refine { hw with others := fun o ho => ?_, own := fun l hl => ⟨old, hold', ?_⟩ }
    · simp only [setDatabase, LsDatabase.update, hold]
      rw [LsMap.get_insert, hw.me, if_neg (Ne.symm ho)]
      exact hw.others o ho
    · simp only [setDatabase, LsDatabase.update, hold] at hl
      rw [LsMap.get_insert, hw.me, if_pos rfl] at hl
      obtain rfl := Option.some.inj hl
      exact hnb _
  unfold LsHost.refresh at hr
  rw [hlinks] at hr
  dsimp only at hr
  split at hr
  · obtain ⟨h₁, hroutes, hr⟩ := bind_eq_ok.mp hr
    obtain ⟨paths, -, hroutes⟩ := bind_eq_ok.mp hroutes
    obtain rfl := pure_eq_ok.mp hroutes
    refine Renewed.sendLinkStates ?_ hr
    exact { hset with }
  · exact Except.ok.inj hr ▸ hset

theorem renewed_intfChanged {links : List LsLink}
    (hnd : ∀ old, h.node.linkStateDatabase[h.node.myNodeId]? = some old →
      (LsLink.neighbors old).Nodup)
    (hr : h.intfChanged now fuel links = .ok h') : Renewed h h' := by
  unfold LsHost.intfChanged LsHost.linkStateChanged at hr
  split at hr
  · simp at hr
  · next old hold =>
    obtain ⟨h₁, hrefresh, hr⟩ := bind_eq_ok.mp hr
    obtain ⟨pre, rest, rfl, hpre⟩ := compareLinks_aligned hr
    have hlinks : (LsLink.neighbors links).Nodup := by
      have := hnd _ hold
      rw [← hpre]
      simp only [LsLink.neighbors, List.map_append] at this ⊢
      exact (List.nodup_append.mp this).1
    have hstart : Renewed h { h with node := { h.node with linkStateList := links } } :=
      { renewed_self h with }
    exact (renewed_sending h).compareLinks (Renewed.refresh rfl hstart rfl hold
      (fun own => LsLink.neighbors_updateList hpre hlinks) hrefresh) hr

theorem renewed_expire {peerId : ℤ} (hr : h.expire now peerId = .ok h') : Renewed h h' := by
  obtain ⟨r, -, hr⟩ := bind_eq_ok.mp hr
  obtain rfl := pure_eq_ok.mp hr
  have hset : Renewed h { h with node := { h.node with ackManager := r.2 } } :=
    { renewed_self h with }
  exact List.foldlRecOn r.1 _ hset fun h₁ hw i _ => (renewed_sending h).sendMessage h₁ peerId i hw

end LsHost

end Ns2XPass
