import Chainlog.ClientCalls

/-!
# Replies are read back

The client reads the reply that a handler's answer stands for, up to the
floats of stored data.  All bodies but pages of records nest at most four
levels deep.
-/

namespace Chainlog

open Json

variable {round : FloatBits → FloatBits}

/-! ## Bodies are read back -/

namespace ClientCall

/-- The answer that a reply is read from. -/
def answerOf : (call : ClientCall) → call.Reply → Answer
  | .append _, receipt => .receipt receipt
  | .read _ _ _, page => .records { count := page.count, entries := page.entries }
  | .head, found => .head found.seq found.headHash
  | .verify, report => .report report
  | .checkpoint, cp => .checkpoint cp
  | .merkleAnchor, anchor => .merkleAnchor anchor
  | .merkleProof _, answer => .merkleProof {
      seq := answer.seq
      leaf := answer.leaf
      root := answer.root
      proof := answer.proof }
  | .createKey _, answer => .created answer.keyId answer.created
  | .shredKey _, answer => .shredded answer.keyId answer.shredded
  | .listKeys, ids => .keyIds ids

end ClientCall

namespace Answer

/-- Its counts fit a `usize`. -/
def Fits : Answer → Prop
  | .records answer => answer.count < 2 ^ 64
  | .merkleAnchor anchor => anchor.count < 2 ^ 64
  | .merkleProof answer =>
      answer.proof.leafIndex < 2 ^ 64 ∧ answer.proof.leafCount < 2 ^ 64
  | .report r => r.entriesChecked < 2 ^ 64
  | _ => True

variable (round) in
/-- What its printed form is read as: stored data may hold floats. -/
def reload : Answer → Answer
  | .records answer => .records {
      count := answer.count
      entries := answer.entries.map (Value.reload round) }
  | other => other

end Answer

theorem mapNumbers_jsonObject (f : Number → Number)
    (members : List (String × Document)) :
    (jsonObject members).mapNumbers f =
      jsonObject (members.map (onValue (mapNumbers f))) := by
  show ((Json.object members).sortKeys).mapNumbers f =
    (Json.object (members.map (onValue (mapNumbers f)))).sortKeys
  rw [mapNumbers_sortKeys, mapNumbers, mapMembers_eq_map]

@[simp] theorem mapNumbers_i64Document (t : Int64) :
    (i64Document t).mapNumbers (Number.reread round) = i64Document t := by
  unfold i64Document
  split_ifs <;> rw [mapNumbers] <;> rfl

@[simp] theorem mapNumbers_usizeDocument (n : ℕ) :
    (usizeDocument n).mapNumbers (Number.reread round) = usizeDocument n := by
  rw [usizeDocument, mapNumbers]
  rfl

theorem MerkleProof.mapNumbers_toDocument (proof : MerkleProof) :
    proof.toDocument.mapNumbers (Number.reread round) = proof.toDocument := by
  have hpath : (proof.path.map ProofStep.toDocument).map
      (mapNumbers (Number.reread round)) =
        proof.path.map ProofStep.toDocument := by
    rw [List.map_map]
    apply List.map_congr_left
    intro step _
    simp [ProofStep.toDocument, ProofStep.members, mapNumbers, mapMembers]
  simp [MerkleProof.toDocument, MerkleProof.members, mapNumbers, mapMembers,
    mapItems_eq_map, hpath]

theorem VerifyReport.mapNumbers_toDocument (report : VerifyReport) :
    report.toDocument.mapNumbers (Number.reread round) = report.toDocument := by
  obtain ⟨entriesChecked, violations, head⟩ := report
  have hviolations : (violations.map Violation.toDocument).map
      (mapNumbers (Number.reread round)) =
        violations.map Violation.toDocument := by
    rw [List.map_map]
    apply List.map_congr_left
    intro violation _
    simp [Violation.toDocument, ViolationKind.toDocument, mapNumbers,
      mapMembers, Number.reread]
  rcases head with _ | ⟨seq, hash⟩ <;>
  simp [VerifyReport.toDocument, mapNumbers, mapMembers, mapItems_eq_map,
    Number.reread, hviolations]

/-- A printed answer is read as its document, up to the floats of records. -/
theorem Answer.mapNumbers_toDocument (answer : Answer) :
    answer.toDocument.mapNumbers (Number.reread round) =
      (answer.reload round).toDocument := by
  cases answer with
  | health =>
      simp [toDocument, reload, mapNumbers_jsonObject, onValue, mapNumbers]
  | receipt r => simp [toDocument, reload, Receipt.toDocument, mapNumbers, mapMembers,
        Number.reread]
  | head seq hash =>
      simp [toDocument, reload, mapNumbers_jsonObject, onValue, mapNumbers,
        Number.reread]
  | records answer =>
      have hentries : (answer.entries.map Value.toDocument).map
          (mapNumbers (Number.reread round)) =
            (answer.entries.map (Value.reload round)).map Value.toDocument := by
        rw [List.map_map, List.map_map]
        rfl
      simp [toDocument, reload, mapNumbers_jsonObject, onValue, mapNumbers,
        mapItems_eq_map, hentries]
  | checkpoint cp =>
      simp [toDocument, reload, Checkpoint.toDocument, mapNumbers, mapMembers,
        Number.reread]
  | merkleAnchor anchor =>
      simp [toDocument, reload, MerkleAnchor.toDocument, mapNumbers, mapMembers,
        Number.reread]
  | merkleProof answer =>
      obtain ⟨seq, _ | leaf, root, proof⟩ := answer <;>
      simp [toDocument, reload, mapNumbers_jsonObject, onValue, mapNumbers,
        Number.reread, proof.mapNumbers_toDocument]
  | report r => exact r.mapNumbers_toDocument
  | keyIds ids =>
      have hids : (ids.map (Json.string : String → Document)).map
          (mapNumbers (Number.reread round)) = ids.map .string := by
        rw [List.map_map]
        apply List.map_congr_left
        intro id _
        simp [mapNumbers]
      simp [toDocument, reload, mapNumbers_jsonObject, onValue, mapNumbers,
        mapItems_eq_map, hids]
  | created keyId isNew =>
      simp [toDocument, reload, mapNumbers_jsonObject, onValue, mapNumbers]
  | shredded keyId present =>
      simp [toDocument, reload, mapNumbers_jsonObject, onValue, mapNumbers]

theorem structMembers_jsonObject (fields : List String)
    (members : List (String × Document)) :
    structMembers fields (jsonObject members) =
      .ok (sortMembers members []) := by
  rw [jsonObject_eq, structMembers]

theorem Head.ofDocument_answer (head : Head) :
    ofDocument (Answer.head head.seq head.headHash).toDocument = .ok head := by
  rw [Answer.toDocument, ofDocument, structMembers_jsonObject]
  simp only [bind, Except.bind]
  rw [required_sorted (by simp), required_sorted (by simp)]
  simp [required, structField, sortKeys, readU64, readString, bind, Except.bind,
    pure, Except.pure]

theorem ReadResponse.ofDocument_answer {page : ReadResponse}
    (hcount : page.count < 2 ^ 64) :
    ofDocument (Answer.records ⟨page.count, page.entries⟩).toDocument =
      .ok page := by
  obtain ⟨count, entries⟩ := page
  have hvalues : readItems (Except.ok (ε := String) ∘ Value.ofDocument)
      (entries.map (sortKeys ∘ Value.toDocument)) = .ok (entries.map id) := by
    apply readItems_map
    intro value _
    have hsorted : value.toDocument.sortKeys = value.toDocument :=
      sortKeys_eq_self _ value.property
    simp [hsorted]
  have hnumber : (usizeDocument count).sortKeys = usizeDocument count := by
    rw [usizeDocument, sortKeys]
  rw [Answer.toDocument, ofDocument, structMembers_jsonObject]
  simp only [bind, Except.bind]
  rw [required_sorted (by simp), required_sorted (by simp)]
  simp [required, structField, hnumber, readUsize_usizeDocument hcount,
    sortKeys, sortItems_eq_map, readVec, hvalues, bind, Except.bind, pure,
    Except.pure]

theorem MerkleProofResponse.ofDocument_answer {answer : MerkleProofResponse}
    (hindex : answer.proof.leafIndex < 2 ^ 64)
    (hcount : answer.proof.leafCount < 2 ^ 64) :
    ofDocument (Answer.merkleProof ⟨answer.seq, answer.leaf, answer.root,
      answer.proof⟩).toDocument = .ok answer := by
  obtain ⟨seq, leaf, root, proof⟩ := answer
  have hproof := MerkleProof.ofDocument_sorted hindex hcount
  rw [Answer.toDocument, ofDocument, structMembers_jsonObject]
  simp only [bind, Except.bind]
  rw [required_sorted (by simp), required_sorted (by simp),
    required_sorted (by simp), defaulted_sorted (by simp)]
  cases leaf <;>
  simp [required, defaulted, structField, sortKeys, readU64, readString,
    readOption, hproof, bind, Except.bind, pure, Except.pure, Except.map]

theorem CreateKeyResponse.ofDocument_answer (answer : CreateKeyResponse) :
    ofDocument (Answer.created answer.keyId answer.created).toDocument =
      .ok answer := by
  rw [Answer.toDocument, ofDocument, structMembers_jsonObject]
  simp only [bind, Except.bind]
  rw [required_sorted (by simp), required_sorted (by simp)]
  simp [required, structField, sortKeys, readString, readBool, bind,
    Except.bind, pure, Except.pure]

theorem ShredKeyResponse.ofDocument_answer (answer : ShredKeyResponse) :
    ofDocument (Answer.shredded answer.keyId answer.shredded).toDocument =
      .ok answer := by
  rw [Answer.toDocument, ofDocument, structMembers_jsonObject]
  simp only [bind, Except.bind]
  rw [required_sorted (by simp), required_sorted (by simp)]
  simp [required, structField, sortKeys, readString, readBool, bind,
    Except.bind, pure, Except.pure]

theorem readKeyList_answer (ids : List String) :
    readKeyList (Answer.keyIds ids).toDocument = .ok ids := by
  have hids : readItems readString
      (ids.map (sortKeys ∘ (Json.string : String → Document))) =
        .ok (ids.map id) := by
    apply readItems_map
    intro id _
    rw [Function.comp_apply, sortKeys]
    rfl
  rw [Answer.toDocument, readKeyList, structMembers_jsonObject]
  simp only [bind, Except.bind]
  rw [required_sorted (by simp)]
  simp [required, structField, sortKeys, sortItems_eq_map, readVec, hids, bind,
    Except.bind]

/-- The client reads the reply that an answer stands for. -/
theorem ClientCall.readReply_answerOf (call : ClientCall) (reply : call.Reply)
    (hfits : (call.answerOf reply).Fits) :
    call.readReply (call.answerOf reply).toDocument = .ok reply := by
  cases call with
  | append req => exact Receipt.ofDocument_toDocument reply
  | read fromSeq toSeq decrypt => exact ReadResponse.ofDocument_answer hfits
  | head => exact Head.ofDocument_answer reply
  | verify => exact VerifyReport.ofDocument_toDocument hfits
  | checkpoint => exact Checkpoint.ofDocument_toDocument reply
  | merkleAnchor => exact MerkleAnchor.ofDocument_toDocument hfits
  | merkleProof seq =>
      exact MerkleProofResponse.ofDocument_answer hfits.1 hfits.2
  | createKey keyId => exact CreateKeyResponse.ofDocument_answer reply
  | shredKey keyId => exact ShredKeyResponse.ofDocument_answer reply
  | listKeys => exact readKeyList_answer reply

/-! ## Nesting of bodies -/

theorem depth_jsonObject {members : List (String × Document)}
    (hdistinct : (Json.object members).Distinct) :
    (jsonObject members).depth = depthMembers members + 1 := by
  show ((Json.object members).sortKeys).depth = _
  rw [depth_sortKeys _ hdistinct, depth_object]

@[simp] theorem depth_i64Document (t : Int64) : (i64Document t).depth = 0 := by
  unfold i64Document
  split_ifs <;> rw [depth_number]

@[simp] theorem depth_usizeDocument (n : ℕ) : (usizeDocument n).depth = 0 := by
  rw [usizeDocument, depth_number]

theorem distinctItems_iff {items : List Document} :
    DistinctItems items ↔ ∀ item ∈ items, item.Distinct := by
  induction items with
  | nil => simp [DistinctItems]
  | cons item rest ih => simp [DistinctItems, ih]

@[simp] theorem distinct_usizeDocument (n : ℕ) : (usizeDocument n).Distinct := by
  simp [usizeDocument, Distinct]

theorem MerkleProof.distinct_toDocument (proof : MerkleProof) :
    proof.toDocument.Distinct := by
  have hsteps : DistinctItems (proof.path.map ProofStep.toDocument) := by
    rw [distinctItems_iff]
    intro item hitem
    obtain ⟨step, _, rfl⟩ := List.mem_map.mp hitem
    simp [ProofStep.toDocument, ProofStep.members, Distinct, DistinctMembers]
  simp [MerkleProof.toDocument, MerkleProof.members, Distinct, DistinctMembers,
    hsteps]

theorem depthItems_map_le {α : Type} {write : α → Document} {n : ℕ}
    (hwrite : ∀ item, (write item).depth ≤ n) (items : List α) :
    depthItems (items.map write) ≤ n := by
  rw [depthItems_le_iff]
  intro doc hdoc
  obtain ⟨item, _, rfl⟩ := List.mem_map.mp hdoc
  exact hwrite item

theorem MerkleProof.depth_toDocument (proof : MerkleProof) :
    proof.toDocument.depth ≤ 3 := by
  have hsteps : depthItems (proof.path.map ProofStep.toDocument) ≤ 1 :=
    depthItems_map_le (fun step => by
      simp [ProofStep.toDocument, ProofStep.members]) proof.path
  simp [MerkleProof.toDocument, MerkleProof.members]
  omega

/-- Only records nest as deep as the log. -/
theorem Answer.depth_le {answer : Answer}
    (hrecords : ∀ page, answer ≠ .records page) :
    answer.toDocument.depth ≤ 4 := by
  cases answer with
  | records page => exact absurd rfl (hrecords page)
  | health =>
      rw [toDocument, depth_jsonObject (by simp [Distinct, DistinctMembers])]
      simp
  | receipt r => simp [toDocument, Receipt.toDocument]
  | head seq hash =>
      rw [toDocument, depth_jsonObject (by simp [Distinct, DistinctMembers])]
      simp
  | checkpoint cp => simp [toDocument, Checkpoint.toDocument]
  | merkleAnchor anchor => simp [toDocument, MerkleAnchor.toDocument]
  | merkleProof page =>
      obtain ⟨seq, leaf, root, proof⟩ := page
      have hproof := proof.depth_toDocument
      have hdistinct := proof.distinct_toDocument
      rw [toDocument, depth_jsonObject]
      · cases leaf <;> simp <;> omega
      · cases leaf <;> simp [Distinct, DistinctMembers, hdistinct]
  | report r =>
      have hviolations : depthItems (r.violations.map Violation.toDocument) ≤ 1 :=
        depthItems_map_le (fun violation => by
          simp [Violation.toDocument, ViolationKind.toDocument]) r.violations
      obtain ⟨count, violations, _ | ⟨seq, hash⟩⟩ := r <;>
      simp [toDocument, VerifyReport.toDocument] at hviolations ⊢ <;>
      omega
  | keyIds ids =>
      have hids : depthItems (ids.map (Json.string : String → Document)) ≤ 0 :=
        depthItems_map_le (fun id => by simp) ids
      have hdistinct : DistinctItems
          (ids.map (Json.string : String → Document)) := by
        rw [distinctItems_iff]
        intro item hitem
        obtain ⟨id, _, rfl⟩ := List.mem_map.mp hitem
        simp [Distinct]
      rw [toDocument, depth_jsonObject (by
        simp [Distinct, DistinctMembers, hdistinct])]
      simp
      omega
  | created keyId isNew =>
      rw [toDocument, depth_jsonObject (by simp [Distinct, DistinctMembers])]
      simp
  | shredded keyId present =>
      rw [toDocument, depth_jsonObject (by simp [Distinct, DistinctMembers])]
      simp

/-- A page nests its entries two levels deeper. -/
theorem Answer.depth_records_le_iff {page : RecordsAnswer} {limit : ℕ} :
    (Answer.records page).toDocument.depth ≤ limit ↔
      2 ≤ limit ∧ ∀ value ∈ page.entries, value.depth + 2 ≤ limit := by
  have hdistinct : DistinctItems (page.entries.map Value.toDocument) := by
    rw [distinctItems_iff]
    intro item hitem
    obtain ⟨value, _, rfl⟩ := List.mem_map.mp hitem
    exact Sorted.distinct _ value.property
  have hdepth : (Answer.records page).toDocument.depth =
      depthItems (page.entries.map Value.toDocument) + 2 := by
    rw [toDocument, depth_jsonObject (by
      simp [Distinct, DistinctMembers, hdistinct])]
    simp
  rw [hdepth]
  constructor
  · intro h
    refine ⟨by omega, fun value hvalue => ?_⟩
    have hle : depthItems (page.entries.map Value.toDocument) ≤ limit - 2 := by
      omega
    have hone := depthItems_le_iff.mp hle value.toDocument
      (List.mem_map_of_mem hvalue)
    rw [Value.depth]
    omega
  · rintro ⟨hlimit, hvalues⟩
    have hle : depthItems (page.entries.map Value.toDocument) ≤ limit - 2 := by
      rw [depthItems_le_iff]
      intro doc hdoc
      obtain ⟨value, hvalue, rfl⟩ := List.mem_map.mp hdoc
      have hone := hvalues value hvalue
      rw [Value.depth] at hone
      omega
    omega

end Chainlog
