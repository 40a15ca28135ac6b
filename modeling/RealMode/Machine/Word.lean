namespace RealMode

/-- The word of two bytes, low byte first. -/
def littleEndian (low high : UInt8) : UInt16 := low.toUInt16 ||| high.toUInt16 <<< 8

end RealMode
