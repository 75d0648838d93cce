import CoLinkServer.Subscription

/-! What the subscriptions read back from the key paths that the storage writes. The user id ends at the
first colon, the key name at the last `@`, and the level of a key at its last colon, whatever else there
is in a key name. -/
namespace CoLinkServer
namespace Subscription

open SeparatedText

theorem getUserId_userIdKeyName {userId : String} (hu : NoColon userId) (keyName : String) :
    getUserId (userIdKeyName userId keyName) = userId := by
  have hs : (userIdKeyName userId keyName).toList = userId.toList ++ ':' :: (':' :: keyName.toList) := by
    simp [userIdKeyName]
  rw [getUserId,hs,splitFirst_append hu]
  simp

theorem getUserId_keyPath {userId : String} (hu : NoColon userId) (keyName : String) (timestamp : ℤ) :
    getUserId (keyPath userId keyName timestamp) = userId := by
  have hpath : keyPath userId keyName timestamp =
      userIdKeyName userId (keyName ++ "@" ++ toString timestamp) := by
    simp [keyPath,userIdKeyName,String.append_assoc]
  rw [hpath,getUserId_userIdKeyName hu]

theorem getPrefix_colon (u k : String) :
    getPrefix u k ++ ":" = userIdKeyName u (CoLinkServer.getPrefix k) := by
  cases h : rsplit ':' k with
  | none => simp [getPrefix,CoLinkServer.getPrefix,h,userIdKeyName,String.append_assoc]
  | some parts =>
    simp [getPrefix,CoLinkServer.getPrefix,h,userIdKeyName,String.append_assoc]

/-- A key path gives back the user id, the key name and the timestamp that it is made of, no two key paths
are the same, and a key is listed where it has been entered. -/
theorem key_paths_decode :
    (∀ (u k : String) (t : Int64), NoColon u →
      getUserIdKeyName (keyPath u k t.toInt) = some (userIdKeyName u k) ∧
      getTimestamp (keyPath u k t.toInt) = some t.toInt ∧
      getUserId (keyPath u k t.toInt) = u ∧ getUserId (userIdKeyName u k) = u) ∧
    (∀ (u u' k k' : String) (t t' : Int64), NoColon u → NoColon u' →
      keyPath u k t.toInt = keyPath u' k' t'.toInt → u = u' ∧ k = k' ∧ t = t') ∧
    ∀ u k : String, getPrefix u k ++ ":" = u ++ "::" ++ CoLinkServer.getPrefix k := by
  refine ⟨fun u k t hu => ⟨?_,?_,getUserId_keyPath hu k _,getUserId_userIdKeyName hu k⟩,
    fun u u' k k' t t' hu hu' h => ?_,getPrefix_colon⟩
  · rw [← atTimestamp_userIdKeyName,getUserIdKeyName_atTimestamp]
  · rw [← atTimestamp_userIdKeyName,getTimestamp_atTimestamp _ t.le_toInt t.toInt_lt]
  · obtain ⟨rfl,rfl,ht⟩ := (keyPath_inj hu hu').mp h
    exact ⟨rfl,rfl,Int64.toInt_inj.mp ht⟩

theorem key_paths_decode_separators :
    getUserIdKeyName (keyPath "alice" ":a@b::@7" (-1)) = some (userIdKeyName "alice" ":a@b::@7") ∧
    getTimestamp (keyPath "alice" ":a@b::@7" (-1)) = some (-1) ∧
    getUserId (keyPath "alice" ":a@b::@7" (-1)) = "alice" ∧
    getUserId (userIdKeyName "alice" ":a@b::@7") = "alice" :=
  key_paths_decode.1 "alice" ":a@b::@7" (-1) (by decide)

end Subscription
end CoLinkServer
