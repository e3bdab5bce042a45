import OktoGrafx.Log.Refresh

/-! Logs as writers leave them: records in sequence, and at the very end perhaps a record that is not all
there yet. Such a log reads the same from any of its records on. -/

namespace Grafx.Log

open List Wal

def Tear (tail : Bytes) : Prop := tail = [] ∨ ∃ n, decodeRecord tail = .failure .truncatedTail n

inductive Sound : Option ℕ → Directory → List (List WalRecord) → Prop
  | nil {expected} : Sound expected [] []
  | torn {expected rs tail seg} : seg.data = imagesOf rs ++ tail → seg.data.length ≤ maxSegmentReadBytes → Run everyRecord expected rs →
      Tear tail → Sound expected [seg] [rs]
  | cons {expected rs seg segs groups} : seg.data = imagesOf rs → seg.data.length ≤ maxSegmentReadBytes → Run everyRecord expected rs →
      Sound (after expected rs) segs groups → Sound expected (seg :: segs) (rs :: groups)

variable {keep : WalRecord → Bool} {expected : Option ℕ} {r : WalRecord} {rs rs' : List WalRecord} {tail : Bytes} {seg : Segment}
  {d segs : Directory} {groups : List (List WalRecord)}

theorem tear_nil : Tear [] := .inl rfl

theorem Tear.no_image (h : Tear tail) (hr : r.Readable) : ¬ r.image <+: tail := by
  intro himage
  rcases h with rfl | ⟨n, hn⟩
  · exact WalRecord.image_ne_nil (prefix_nil.mp himage)
  · rw [decodeRecord_record_iff.mpr ⟨hr, rfl, himage⟩] at hn
    cases hn

theorem tear_part (hr : r.Readable) (hpart : tail <+: r.image) (hne : tail ≠ r.image) : Tear tail := by
  have hshort : tail.length < r.encodedLength := by
    rw [← WalRecord.image_length]
    exact Nat.lt_of_le_of_ne hpart.length_le fun heq => hne (hpart.eq_of_length heq)
  refine .inr ?_
  unfold decodeRecord
  by_cases hheader : tail.length < walHeaderLength
  · rw [if_pos hheader]
    exact ⟨_, rfl⟩
  have htake : tail.take walHeaderLength = r.header.pack := by
    have hpack : r.header.pack <+: r.image := by
      exact prefix_append _ _
    have hprefix := prefix_of_prefix_length_le hpack hpart (by rw [WireHeader.pack_length]; exact not_lt.mp hheader)
    rw [prefix_iff_eq_take.mp hprefix, WireHeader.pack_length]
  rw [if_neg hheader, htake, WireHeader.unpack_pack hr.header_fits]
  have hmagic : r.header.magic = walMagic := rfl
  have hversion : r.header.formatVersion ∈ supportedFormatVersions := hr.formatVersion
  have hlength : r.header.headerLength = walHeaderLength := rfl
  have htotal : r.header.totalLength = r.header.headerLength + r.header.descriptorLength + r.header.payloadLength + checksumLength := rfl
  have hlt : tail.length < r.header.totalLength := hshort
  unfold decodeHeaded
  rw [if_neg (not_not_intro hmagic), if_neg (not_not_intro hversion), if_neg (not_not_intro hlength), if_neg (not_not_intro htotal),
    if_pos hlt]
  exact ⟨_, rfl⟩

theorem exists_tear {part : Bytes} (hrun : Run keep expected rs) (hpart : part <+: imagesOf rs) :
    ∃ rs' tail, part = imagesOf rs' ++ tail ∧ rs' <+: rs ∧ Tear tail := by
  induction hrun generalizing part with
  | nil => exact ⟨[], [], prefix_nil.mp hpart, prefix_refl _, tear_nil⟩
  | @cons expected r rs hr _ _ _ ih =>
    by_cases hlong : r.encodedLength ≤ part.length
    · have himage : r.image <+: part :=
        prefix_of_prefix_length_le (prefix_append _ _) hpart (by rw [WalRecord.image_length]; exact hlong)
      obtain ⟨rest, rfl⟩ := himage
      obtain ⟨rs', tail, rfl, hrs', htail⟩ := ih ((prefix_append_right_inj _).mp hpart)
      exact ⟨r :: rs', tail, by rw [imagesOf_cons, append_assoc], (prefix_cons_inj r).mpr hrs', htail⟩
    · have himage : part <+: r.image :=
        prefix_of_prefix_length_le hpart (prefix_append _ _) (by rw [WalRecord.image_length]; omega)
      refine ⟨[], part, rfl, nil_prefix, tear_part hr himage ?_⟩
      rintro rfl
      rw [WalRecord.image_length] at hlong
      exact hlong le_rfl

/-! ## One way to read -/

theorem Run.prefix_of (h : Run keep expected rs) {more : Bytes} (h' : ∀ r ∈ rs', r.Readable) (htail : Tear tail)
    (heq : imagesOf rs ++ more = imagesOf rs' ++ tail) : ∃ rest, rs' = rs ++ rest ∧ more = imagesOf rest ++ tail := by
  induction h generalizing rs' with
  | nil => exact ⟨rs', rfl, heq⟩
  | @cons expected r rs hr _ _ _ ih =>
    rw [imagesOf_cons, append_assoc] at heq
    have himage : r.image <+: imagesOf rs' ++ tail := ⟨_, heq⟩
    cases rs' with
    | nil => exact absurd himage (htail.no_image hr)
    | cons r' rs' =>
      obtain ⟨hr', hrest⟩ := forall_mem_cons.mp h'
      rw [imagesOf_cons, append_assoc] at himage heq
      obtain rfl := image_unique hr hr' himage (prefix_append _ _)
      obtain ⟨rest, rfl, hmore⟩ := ih hrest (append_cancel_left heq)
      exact ⟨rest, rfl, hmore⟩

theorem Run.unique (h : Run keep expected rs) (h' : ∀ r ∈ rs', r.Readable) (heq : imagesOf rs = imagesOf rs') : rs = rs' := by
  obtain ⟨rest, rfl, hrest⟩ := h.prefix_of h' tear_nil (heq.symm ▸ rfl : imagesOf rs ++ [] = imagesOf rs' ++ [])
  rw [append_nil] at hrest
  rw [imagesOf_eq_nil.mp hrest.symm, append_nil]

theorem Clean.unique {groups' : List (List WalRecord)} (h : Clean keep expected segs groups) (h' : Clean keep expected segs groups') :
    groups = groups' := by
  induction h generalizing groups' with
  | nil =>
    cases h'
    rfl
  | cons hdata _ hrun _ ih =>
    cases h' with
    | cons hdata' _ hrun' hrest' =>
      obtain rfl := hrun.unique hrun'.readable (hdata.symm.trans hdata')
      rw [ih hrest']

/-! ## Sound logs -/

theorem Clean.sound (h : Clean everyRecord expected segs groups) : Sound expected segs groups := by
  induction h with
  | nil => exact .nil
  | cons hdata hsize hrun _ ih => exact .cons hdata hsize hrun ih

theorem Clean.append_torn (h : Clean everyRecord expected segs groups) (hdata : seg.data = imagesOf rs ++ tail)
    (hsize : seg.data.length ≤ maxSegmentReadBytes) (hrun : Run everyRecord (after expected groups.flatten) rs) (htail : Tear tail) :
    Sound expected (segs ++ [seg]) (groups ++ [rs]) := by
  induction h with
  | nil => exact .torn hdata hsize hrun htail
  | cons hdata' hsize' hrun' _ ih =>
    rw [flatten_cons, after_append] at hrun
    exact .cons hdata' hsize' hrun' (ih hrun)

theorem Sound.split {front back : Directory} (h : Sound expected (front ++ seg :: back) groups) :
    ∃ groups rs tail, Clean everyRecord expected front groups ∧ seg.data = imagesOf rs ++ tail ∧ seg.data.length ≤ maxSegmentReadBytes ∧
      Run everyRecord (after expected groups.flatten) rs ∧ Tear tail ∧ (back ≠ [] → tail = []) := by
  induction front generalizing expected groups with
  | nil =>
    cases h with
    | torn hdata hsize hrun htail => exact ⟨[], _, _, .nil, hdata, hsize, hrun, htail, fun hne => absurd rfl hne⟩
    | cons hdata hsize hrun _ => exact ⟨[], _, [], .nil, hdata.trans (append_nil _).symm, hsize, hrun, tear_nil, fun _ => rfl⟩
  | cons x front ih =>
    obtain ⟨segs, hsegs⟩ : ∃ segs, front ++ seg :: back = segs := ⟨_, rfl⟩
    rw [cons_append, hsegs] at h
    cases h with
    | torn _ _ _ _ => cases front <;> cases hsegs
    | cons hdata hsize hrun hrest =>
      rw [← hsegs] at hrest
      obtain ⟨groups, rs, tail, hclean, hseg⟩ := ih hrest
      refine ⟨_ :: groups, rs, tail, .cons hdata hsize hrun hclean, ?_⟩
      rw [flatten_cons, after_append]
      exact hseg

theorem Sound.relax (h : Sound expected segs groups) : Sound none segs groups := by
  induction h with
  | nil => exact .nil
  | torn hdata hsize hrun htail => exact .torn hdata hsize hrun.relax htail
  | @cons expected rs seg segs groups hdata hsize hrun hrest ih =>
    refine .cons hdata hsize hrun.relax ?_
    by_cases hrs : rs = []
    · subst hrs
      exact ih
    · rwa [after_of_ne_nil hrs]

theorem Sound.drop (h : Sound none segs groups) (n : ℕ) : Sound none (segs.drop n) (groups.drop n) := by
  induction n generalizing segs groups with
  | zero => exact h
  | succ n ih =>
    cases h with
    | nil => exact .nil
    | torn _ _ _ _ =>
      rw [drop_succ_cons, drop_succ_cons, drop_nil, drop_nil]
      exact .nil
    | cons _ _ _ hrest => exact ih hrest.relax

/-! ## Reading a sound log -/

def tornItems (segment offset : ℕ) (expected : Option ℕ) (tail : Bytes) : List ScanItem :=
  if tail = [] then [] else [.failure ⟨.truncatedTail, segment, offset, tail.length, expected.getD noLsn⟩]

theorem walkBytes_tear (segment budget offset candidates spent : ℕ) {fuel : ℕ} (h : Tear tail) (hfuel : tail.length ≤ fuel) :
    walkBytes segment budget fuel offset expected candidates spent tail = (tornItems segment offset expected tail, expected) := by
  unfold tornItems
  by_cases hnil : tail = []
  · rw [if_pos hnil, hnil, walkBytes_nil]
  · obtain ⟨n, hn⟩ := h.resolve_left hnil
    obtain ⟨fuel, rfl⟩ : ∃ k, fuel = k + 1 := ⟨fuel - 1, by have := length_pos_iff.mpr hnil; omega⟩
    rw [if_neg hnil, walkBytes, if_neg hnil, hn]
    exact if_pos rfl

theorem walkBytes_sound (segment budget offset candidates spent : ℕ) {fuel : ℕ} (hrun : Run keep expected rs) (htail : Tear tail)
    (hfuel : (imagesOf rs ++ tail).length ≤ fuel) :
    walkBytes segment budget fuel offset expected candidates spent (imagesOf rs ++ tail) =
      (recordItems segment offset rs ++ tornItems segment (offset + (imagesOf rs).length) (after expected rs) tail, after expected rs) := by
  obtain ⟨fuel', hfuel', hwalk⟩ := walkBytes_run segment budget candidates spent hrun tail fuel offset hfuel
  rw [hwalk, walkBytes_tear _ _ _ _ _ htail hfuel']

theorem filterMap_tornItems (segment offset : ℕ) (expected : Option ℕ) (tail : Bytes) :
    (tornItems segment offset expected tail).filterMap ScanItem.record? = [] := by
  unfold tornItems
  split <;> rfl

theorem tornItems_ends (segment offset : ℕ) (expected : Option ℕ) (tail : Bytes) : Ends keep (tornItems segment offset expected tail) := by
  unfold tornItems
  split
  · exact nofun
  · exact ends_cons rfl

theorem walk_torn (hdata : seg.data = imagesOf rs ++ tail) (hsize : seg.data.length ≤ maxSegmentReadBytes) (hrun : Run keep expected rs)
    (htail : Tear tail) :
    walk expected [seg] = (recordItems seg.number 0 rs ++ tornItems seg.number (imagesOf rs).length (after expected rs) tail, none) := by
  have hwalk := walkBytes_sound seg.number (seg.data.length * resyncChecksumBudgetFactor) 0 0 0 hrun htail le_rfl
  rw [← hdata, zero_add] at hwalk
  rw [walk_cons hsize, hwalk]
  show (_ ++ [], none) = _
  rw [append_nil]

theorem cleanItems_single (seg : Segment) (rs : List WalRecord) : cleanItems [seg] [rs] = recordItems seg.number 0 rs := append_nil _

theorem Sound.walk (h : Sound expected segs groups) :
    (∃ items, (walk expected segs).1 = cleanItems segs groups ++ items ∧ items.filterMap ScanItem.record? = [] ∧ Ends everyRecord items) ∧
      (walk expected segs).2 = none := by
  induction h with
  | nil => exact ⟨⟨[], rfl, rfl, nofun⟩, rfl⟩
  | torn hdata hsize hrun htail =>
    rw [walk_torn hdata hsize hrun htail]
    exact ⟨⟨_, by rw [cleanItems_single], filterMap_tornItems _ _ _ _, tornItems_ends _ _ _ _⟩, rfl⟩
  | cons hdata hsize hrun _ ih =>
    obtain ⟨⟨items, hitems, hnone, hends⟩, hraised⟩ := ih
    rw [walk_segment hdata hsize hrun]
    exact ⟨⟨items, by rw [hitems, cleanItems, append_assoc], hnone, hends⟩, hraised⟩

theorem Sound.record?_items (h : Sound expected segs groups) : (cleanItems segs groups).map ScanItem.record? = groups.flatten.map some := by
  induction h with
  | nil => rfl
  | torn _ _ _ _ => rw [cleanItems_single, record?_recordItems, flatten_singleton]
  | cons _ _ _ _ ih => rw [cleanItems, map_append, record?_recordItems, ih, flatten_cons, map_append]

def decodable (d : Directory) : List WalRecord := (walk none d).1.filterMap ScanItem.record?

theorem Sound.decodable (h : Sound none (live d) groups) : decodable d = groups.flatten := by
  obtain ⟨⟨items, hitems, hnone, -⟩, -⟩ := h.walk
  rw [Log.decodable, walk_live, hitems, filterMap_append, hnone, append_nil, filterMap_of_record? h.record?_items]

theorem Sound.readable (h : Sound none (live d) groups) : readable everyRecord d = groups.flatten := by
  obtain ⟨⟨items, hitems, -, hends⟩, -⟩ := h.walk
  rw [← readable_live]
  exact readable_of_walk _ hitems h.record?_items (fun _ _ => rfl) hends

/-- A log as writers leave it: sound, and no record carries the number that means none. -/
structure Healthy (d : Directory) : Prop where
  sound : ∃ groups, Sound none (live d) groups
  assigned : ∀ r ∈ readable everyRecord d, r.lsn ≠ noLsn

theorem healthy_of_live {d' : Directory} (h : Healthy d) (hlive : live d' = live d) : Healthy d' := by
  refine ⟨hlive ▸ h.sound, ?_⟩
  rw [← readable_live, hlive, readable_live]
  exact h.assigned

theorem healthy_of_undamaged (h : (rescan d).damage = none) (hassigned : ∀ r ∈ readable everyRecord d, r.lsn ≠ noLsn) : Healthy d := by
  obtain ⟨groups, hclean⟩ := clean_of_undamaged h
  exact ⟨⟨groups, hclean.sound⟩, hassigned⟩

end Grafx.Log
