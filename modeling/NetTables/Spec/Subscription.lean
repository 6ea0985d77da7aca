import NetTables.Spec.Topic

namespace NetTables.Spec

/-- The options of a subscription; a period is a number of seconds. -/
structure SubscriptionOptions where
  periodic : Option ℚ := none
  all : Option Bool := none
  topicsOnly : Option Bool := none
  prefixed : Option Bool := none
  deriving DecidableEq

structure Subscription where
  subuid : Int32
  topics : Finset String
  options : Option SubscriptionOptions
  deriving DecidableEq

namespace Subscription

def getOptions (sub : Subscription) : SubscriptionOptions := sub.options.getD {}

/-- By prefix or by the exact name, as the subscription asks. -/
def caresAbout (sub : Subscription) (topic : String) : Bool :=
  if sub.getOptions.prefixed.getD false then
    decide (∃ topicPat ∈ sub.topics, topicPat.toList <+: topic.toList)
  else
    decide (∃ topicName ∈ sub.topics, topicName = topic)

end Subscription

end NetTables.Spec
